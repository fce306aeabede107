import MarkupTree.Path.Grammar

/-!
# What was expected

Where a text is refused, the message names the rules that were tried at the furthest place. While
the grammar is followed, the attempts at the furthest place so far are kept: those of rules that
should have fitted, and those of rules that should not have. A rule stands for the attempts made
inside it at its own place, unless there was exactly one.
-/

namespace MarkupTree.Path

/-- The rules tried at a place, in the order of their attempts. -/
structure Attempts where
  place : Nat
  wanted : List Rule
  unwanted : List Rule

namespace Attempts

def start : Attempts := ⟨0, [], []⟩

def countAt (a : Attempts) (place : Nat) : Nat :=
  if place = a.place then a.wanted.length + a.unwanted.length else 0

/-- The attempts at a place and no later one, cut back to those before an attempt there. -/
def backTo (before after : Attempts) (place : Nat) : Attempts :=
  if place = after.place then
    let (wanted, unwanted) :=
      if place = before.place then (before.wanted.length, before.unwanted.length) else (0, 0)
    ⟨place, after.wanted.take wanted, after.unwanted.take unwanted⟩
  else if after.place < place then ⟨place, [], []⟩
  else after

/-- Tells an attempt of a rule at a place, given the attempts before it and after what it tried. -/
def tell (before after : Attempts) (r : Rule) (place : Nat) (negated : Bool) : Attempts :=
  if after.countAt place = before.countAt place + 1 then after
  else
    let a := backTo before after place
    if a.place ≠ place then a
    else if negated then { a with unwanted := a.unwanted ++ [r] }
    else { a with wanted := a.wanted ++ [r] }

end Attempts

structure Place where
  index : Nat
  rest : List Char

namespace Grammar

/-- Follows an expression from a place: where it ends, if it fits, and all attempts so far. Inside
an atomic rule no attempt is told; inside a negation a rule that fits is the one to tell. The fuel
bounds the nesting of expressions, which grows with the length of the text only. -/
def follow : (fuel : Nat) → Grammar → (atomic negated : Bool) → Place → Attempts →
    Option Place × Attempts
  | 0, _, _, _, _, a => (none, a)
  | fuel + 1, g, atomic, negated, here, a =>
    match g with
    | .one p =>
      match here.rest with
      | c :: rest => if p c then (some ⟨here.index + 1, rest⟩, a) else (none, a)
      | [] => (none, a)
    | .literal text =>
      match text.toList.isPrefixOf? here.rest with
      | some rest => (some ⟨here.index + text.length, rest⟩, a)
      | none => (none, a)
    | .nothingLeft => (if here.rest.isEmpty then some here else none, a)
    | .both g h =>
      match follow fuel g atomic negated here a with
      | (some next, a) => follow fuel h atomic negated next a
      | (none, a) => (none, a)
    | .either g h =>
      match follow fuel g atomic negated here a with
      | (some next, a) => (some next, a)
      | (none, a) => follow fuel h atomic negated here a
    | .many g =>
      match follow fuel g atomic negated here a with
      | (some next, a) => follow fuel (.many g) atomic negated next a
      | (none, a) => (some here, a)
    | .perhaps g =>
      match follow fuel g atomic negated here a with
      | (some next, a) => (some next, a)
      | (none, a) => (some here, a)
    | .unless g =>
      match follow fuel g atomic (!negated) here a with
      | (some _, a) => (none, a)
      | (none, a) => (some here, a)
    | .ahead g =>
      match follow fuel g atomic negated here a with
      | (some _, a) => (some here, a)
      | (none, a) => (none, a)
    | .rule r =>
      let (found, after) := follow fuel r.body (r.isAtomic || atomic) negated here a
      if found.isSome == negated && !atomic then
        (found, Attempts.tell a after r here.index negated)
      else (found, after)

def fuelFor (cs : List Char) : Nat := 64 * (cs.length + 2)

end Grammar

namespace Diagnosis

/-- Names joined for a sentence: `A`, `A or B`, `A, B, or C`. -/
def enumerate : List String → String
  | [] => ""
  | [a] => a
  | [a, b] => a ++ " or " ++ b
  | names => ", ".intercalate names.dropLast ++ ", or " ++ names.getLastD ""

/-- The names of rules in the order of the grammar, each rule once. -/
def titles (rules : List Rule) : String :=
  enumerate ((Rule.all.filter (rules.contains ·)).map Rule.title)

/-- The column of a place, counted from one after the last line feed before it. -/
def column (cs : List Char) (place : Nat) : Nat :=
  ((cs.take place).reverse.takeWhile (· != '\n')).length + 1

def expectation (a : Attempts) : String :=
  match a.unwanted.isEmpty, a.wanted.isEmpty with
  | true, true => "unknown parsing error"
  | true, false => "expected " ++ titles a.wanted
  | false, true => "unexpected " ++ titles a.unwanted
  | false, false => "unexpected " ++ titles a.unwanted ++ "; expected " ++ titles a.wanted

/-- Why a text is not what a rule describes. -/
def explain (r : Rule) (text : String) : String :=
  let cs := text.toList
  let (_, a) := Grammar.follow (Grammar.fuelFor cs) (.rule r) false false ⟨0, cs⟩ Attempts.start
  expectation a ++ " at column " ++ (column cs a.place).repr

def fits (r : Rule) (text : String) : Bool :=
  let cs := text.toList
  (Grammar.follow (Grammar.fuelFor cs) (.rule r) false false ⟨0, cs⟩ Attempts.start).1.isSome

end Diagnosis

end MarkupTree.Path
