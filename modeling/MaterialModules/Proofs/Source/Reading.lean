import MaterialModules.Proofs.Source.Inlining
import MaterialModules.Proofs.Source.Words

/-!
Printed expressions are read back. The reader climbs the same strengths by which the printer sets its
parentheses: an operand is read up to the first operator that is too weak for its place.
-/

set_option autoImplicit false

namespace MaterialModules.Source

open Name Text

def TypeName.isFree (t : TypeName) : Bool :=
  t.qualifier = .none && t.name.isFree && (t.array = none || t.array = some .deferred)

/-- Floating-point numbers and negative integers are left out. -/
def Literal.isPlain : Literal → Bool
  | .bool _ | .string _ => true
  | .int n => 0 ≤ n.toInt
  | .float _ | .double _ => false

namespace Expr

mutual

/-- The expressions of which all names are free to be names. -/
def isPlain : Expr → Bool
  | .literal l => l.isPlain
  | .reference t => t.isFree
  | .call callee args => callee.isPlain && argumentsPlain args
  | .unary _ e => e.isPlain
  | .binary _ a b => a.isPlain && b.isPlain
  | .conditional c a b => c.isPlain && a.isPlain && b.isPlain
  | .field e m => e.isPlain && Name.isFree m
  | .index e i => e.isPlain && i.isPlain
  | .letIn bs e => bindingsPlain bs && e.isPlain
termination_by structural e => e

def argumentsPlain : List (Argument Expr) → Bool
  | [] => true
  | ⟨n, e⟩ :: rest => n.all Name.isFree && e.isPlain && argumentsPlain rest
termination_by structural as => as

def bindingsPlain : List (Binding Expr) → Bool
  | [] => true
  | ⟨t, n, e⟩ :: rest => t.isFree && Name.isFree n && e.isPlain && bindingsPlain rest
termination_by structural bs => bs

end

def strength : Expr → Nat
  | .literal _ | .reference _ | .call _ _ | .field _ _ | .index _ _ => 13
  | .unary _ _ => 12
  | .binary op _ _ => op.strength
  | .conditional _ _ _ => 1
  | .letIn _ _ => 0

/-- What the place of the last operand of an expression asks for; 14 without an operand at the end. -/
def lastStrength : Expr → Nat
  | .literal _ | .reference _ | .call _ _ | .field _ _ | .index _ _ => 14
  | .unary _ _ => 12
  | .binary op _ _ => op.strength + 1
  | .conditional _ _ _ => 1
  | .letIn _ _ => 0

theorem chars_eq_within (e : Expr) {outer : Nat} (h : outer ≤ 13) :
    e.chars outer = within outer e.strength (e.chars 0) := by
  cases e with
  | literal | reference | call | field | index =>
    rw [within, if_neg (by simpa [strength] using h)]
    rfl
  | unary | binary | conditional | letIn => rfl

end Expr

inductive Opening where
  | parenthesis
  | unary (op : UnaryOp)
  /-- An expression that is complete. -/
  | whole (e : Expr)
  | locals

def typeName (w r : List Char) : TypeName × List Char :=
  match after? "[]".toList r with
  | some r => ({ name := .ofText (String.ofList w), array := some .deferred }, r)
  | none => ({ name := .ofText (String.ofList w) }, r)

def worded (w r : List Char) : Option (Opening × List Char) :=
  if w = [] then none
  else if w.all Char.isDigit then
    some (.whole (.literal (.int (Int32.ofInt (Nat.ofDigitChars 10 w 0)))), r)
  else if w = "true".toList then some (.whole (.literal (.bool true)), r)
  else if w = "false".toList then some (.whole (.literal (.bool false)), r)
  else if w = "let".toList then (after? " \x7b\n".toList r).map (.locals, ·)
  else some (.whole (.reference (typeName w r).1), (typeName w r).2)

def opening : List Char → Option (Opening × List Char)
  | '(' :: r => some (.parenthesis, r)
  | '-' :: r => some (.unary .neg, r)
  | '!' :: r => some (.unary .not, r)
  | '~' :: r => some (.unary .bitNot, r)
  | '"' :: r => (unquoted r).map fun (s, r) => (.whole (.text (String.ofList s)), r)
  | s => worded (word s).1 (word s).2

inductive Continuation where
  | arguments
  | member
  | position
  | choice
  | operator (op : BinaryOp)

def Continuation.strength : Continuation → Nat
  | .arguments | .member | .position => 13
  | .choice => 1
  | .operator op => op.strength

def BinaryOp.all : List BinaryOp :=
  [.mul, .div, .rem, .add, .sub, .shl, .shr, .lt, .le, .gt, .ge, .eq, .ne, .bitAnd, .bitXor, .bitOr,
    .and, .or]

def continuation : List Char → Option (Continuation × List Char)
  | '(' :: r => some (.arguments, r)
  | '.' :: r => some (.member, r)
  | '[' :: r => some (.position, r)
  | ' ' :: '?' :: ' ' :: r => some (.choice, r)
  | ' ' :: r => BinaryOp.all.findSome? fun op =>
      (after? (op.text.toList ++ [' ']) r).map (.operator op, ·)
  | _ => none

def label? : List Char → Expr → Option (String × List Char)
  | ':' :: ' ' :: r, .reference t => t.localName?.map (·, r)
  | _, _ => none

def declared (s : List Char) : Option ((TypeName × String) × List Char) := do
  let (t, r) := typeName (word s).1 (word s).2
  let (n, r) := word (← after? " ".toList r)
  some ((t, String.ofList n), ← after? " = ".toList r)

/-- What is left of a text, given that it is shorter than the text. The reader goes on only after a
text that has become shorter, which every step of it sees to; so it ends. -/
def shorter? (s r : List Char) : Option { t : List Char // t.length < s.length } :=
  if h : r.length < s.length then some ⟨r, h⟩ else none

theorem shorter?_of_lt {s r : List Char} (h : r.length < s.length) : shorter? s r = some ⟨r, h⟩ := dif_pos h

theorem shorter?_tail (c : Char) (r : List Char) : shorter? (c :: r) r = some ⟨r, Nat.lt_succ_self _⟩ :=
  shorter?_of_lt _

theorem shorter?_cons_append (c : Char) (t r : List Char) :
    shorter? (c :: (t ++ r)) r = some ⟨r, Nat.lt_succ_of_le (List.suffix_append t r).length_le⟩ :=
  shorter?_of_lt _

theorem shorter?_cons_append_cons (c d : Char) (t r : List Char) :
    shorter? (c :: (t ++ d :: r)) r =
      some ⟨r, Nat.lt_succ_of_lt (List.suffix_append t (d :: r)).length_le⟩ :=
  shorter?_of_lt _

mutual

/-- Reads an expression, up to the first operator that is weaker than `least`. -/
def expression (least : Nat) (s : List Char) : Option (Expr × List Char) :=
  match opening s with
  | none => none
  | some (.parenthesis, r) => do
    let ⟨r, _⟩ ← shorter? s r
    let (e, r) ← expression 0 r
    let ⟨r, _⟩ ← shorter? s (← after? [')'] r)
    extension least e r
  | some (.unary op, r) => do
    let ⟨r, _⟩ ← shorter? s r
    let (e, r) ← expression 12 r
    let ⟨r, _⟩ ← shorter? s r
    extension least (.unary op e) r
  | some (.whole e, r) => do
    let ⟨r, _⟩ ← shorter? s r
    extension least e r
  | some (.locals, r) => do
    let ⟨r, _⟩ ← shorter? s r
    let (bs, r) ← bindings r
    let ⟨r, _⟩ ← shorter? s r
    let (e, r) ← expression 0 r
    let ⟨r, _⟩ ← shorter? s r
    extension least (.letIn bs e) r
termination_by 3 * s.length

def extension (least : Nat) (e : Expr) (s : List Char) : Option (Expr × List Char) :=
  match continuation s with
  | none => some (e, s)
  | some (f, r) =>
    if f.strength < least then some (e, s)
    else do
      let ⟨r, _⟩ ← shorter? s r
      match f with
      | .arguments => do
        let (as, r) ← arguments r
        let ⟨r, _⟩ ← shorter? s r
        extension least (.call e as) r
      | .member => do
        let (m, r) := word r
        let ⟨r, _⟩ ← shorter? s r
        extension least (.field e (String.ofList m)) r
      | .position => do
        let (i, r) ← expression 0 r
        let ⟨r, _⟩ ← shorter? s (← after? [']'] r)
        extension least (.index e i) r
      | .choice => do
        let (a, r) ← expression 1 r
        let ⟨r, _⟩ ← shorter? s (← after? " : ".toList r)
        let (b, r) ← expression 1 r
        let ⟨r, _⟩ ← shorter? s r
        extension least (.conditional e a b) r
      | .operator op => do
        let (b, r) ← expression (op.strength + 1) r
        let ⟨r, _⟩ ← shorter? s r
        extension least (.binary op e b) r
termination_by 3 * s.length

def argument (s : List Char) : Option (Argument Expr × List Char) := do
  let (e, r) ← expression 0 s
  match label? r e with
  | none => some (⟨none, e⟩, r)
  | some (n, r) => do
    let ⟨r, _⟩ ← shorter? s r
    let (e, r) ← expression 0 r
    some (⟨some n, e⟩, r)
termination_by 3 * s.length + 1

def arguments (s : List Char) : Option (List (Argument Expr) × List Char) :=
  match s with
  | ')' :: r => some ([], r)
  | s => do
    let (a, r) ← argument s
    match r with
    | ')' :: r => some ([a], r)
    | r => do
      let ⟨r, _⟩ ← shorter? s (← after? ", ".toList r)
      let (as, r) ← arguments r
      some (a :: as, r)
termination_by 3 * s.length + 2

def bindings (s : List Char) : Option (List (Binding Expr) × List Char) :=
  match after? "    ".toList s with
  | none => do some ([], ← after? "\x7d in ".toList s)
  | some r => do
    let ((t, n), r) ← declared r
    let ⟨r, _⟩ ← shorter? s r
    let (e, r) ← expression 0 r
    let ⟨r, _⟩ ← shorter? s (← after? ";\n".toList r)
    let (bs, r) ← bindings r
    some (⟨t, n, e⟩ :: bs, r)
termination_by 3 * s.length

end

def Apart (s : List Char) : Prop := EndsWord s ∧ after? "[]".toList s = none

def Stops (least : Nat) (s : List Char) : Prop :=
  ∀ f r, continuation s = some (f, r) → f.strength < least

variable {least : Nat} {e : Expr} {s rest : List Char}

theorem Stops.mono (h : Stops least s) {k : Nat} (hk : least ≤ k) : Stops k s := fun f r hf =>
  Nat.lt_of_lt_of_le (h f r hf) hk

theorem stops_of_none (h : continuation s = none) : Stops least s := by
  intro f r hf
  rw [h] at hf
  cases hf

theorem stops_of_weaker {f : Continuation} {r : List Char} (h : continuation s = some (f, r))
    (hf : f.strength < least) : Stops least s := by
  intro f' r' hf'
  rw [h] at hf'
  cases hf'
  exact hf

theorem apart_of_symbol {c : Char} (hc : c ∈ [')', ']', ',', ';', ' ', '(', '.']) (s : List Char) :
    Apart (c :: s) := by
  simp only [List.mem_cons, List.not_mem_nil, or_false] at hc
  rcases hc with rfl | rfl | rfl | rfl | rfl | rfl | rfl <;> exact ⟨rfl, rfl⟩

theorem stops_of_closing {c : Char} (hc : c ∈ [')', ']', ',', ';']) (s : List Char) :
    Stops least (c :: s) := by
  refine stops_of_none ?_
  simp only [List.mem_cons, List.not_mem_nil, or_false] at hc
  rcases hc with rfl | rfl | rfl | rfl <;> rfl

theorem extension_of_stops (h : Stops least s) (e : Expr) : extension least e s = some (e, s) := by
  rw [extension]
  split
  · rfl
  · rename_i f r hf
    rw [if_pos (h f r hf)]

/-- Where an expression stands on its own, it is read to its end, and the reading goes on after it. -/
def Reads (e : Expr) : Prop :=
  ∀ ⦃least : Nat⦄ ⦃rest : List Char⦄, least ≤ e.strength → Apart rest → Stops e.lastStrength rest →
    expression least (e.chars 0 ++ rest) = extension least e rest

theorem Expr.strength_le_lastStrength (e : Expr) : e.strength ≤ e.lastStrength := by
  cases e <;> simp [strength, lastStrength]

theorem Expr.lt_lastStrength (e : Expr) {k : Nat} (h2 : 2 ≤ k) (h12 : k ≠ 12) (hk : k ≤ e.strength) :
    k < e.lastStrength := by
  cases e <;> simp only [strength, lastStrength] at hk ⊢ <;> omega

/-- In a place of any strength the same holds, as what stands in parentheses is read on its own. -/
theorem Reads.within (h : Reads e) {outer : Nat} (houter : outer ≤ 13) (hleast : least ≤ outer)
    (hrest : Apart rest) (hstops : outer ≤ e.strength → Stops e.lastStrength rest) :
    expression least (e.chars outer ++ rest) = extension least e rest := by
  rw [e.chars_eq_within houter, Expr.within]
  split
  · have hinner : expression 0 (e.chars 0 ++ ')' :: rest) = some (e, ')' :: rest) := by
      rw [h (Nat.zero_le _) (apart_of_symbol (by decide) rest) (stops_of_closing (by decide) rest),
        extension_of_stops (stops_of_closing (by decide) rest)]
    have htext : '(' :: e.chars 0 ++ [')'] ++ rest = '(' :: (e.chars 0 ++ ')' :: rest) := by simp
    have hclosed : after? [')'] (')' :: rest) = some rest := rfl
    rw [htext, expression]
    simp only [opening, shorter?_tail, hinner, hclosed, shorter?_cons_append_cons, Option.bind_eq_bind,
      Option.bind_some]
  · rename_i hstrong
    exact h (by omega) hrest (hstops (by omega))

theorem Reads.operand (h : Reads e) (hleast : least ≤ 13) (hrest : Apart rest)
    (hstops : Stops least rest) : expression least (e.chars least ++ rest) = some (e, rest) := by
  have hlast : least ≤ e.strength → Stops e.lastStrength rest := fun hk =>
    hstops.mono (Nat.le_trans hk e.strength_le_lastStrength)
  rw [h.within hleast (Nat.le_refl least) hrest hlast, extension_of_stops hstops]

theorem Reads.left (h : Reads e) {outer : Nat} (h2 : 2 ≤ outer) (h12 : outer ≠ 12) (h13 : outer ≤ 13)
    (hleast : least ≤ outer) {f : Continuation} {r : List Char} (hs : Apart s)
    (hnext : continuation s = some (f, r)) (hf : f.strength ≤ outer) :
    expression least (e.chars outer ++ s) = extension least e s :=
  h.within h13 hleast hs fun hk =>
    stops_of_weaker hnext (Nat.lt_of_le_of_lt hf (e.lt_lastStrength h2 h12 hk))

theorem Reads.unary (h : Reads e) (op : UnaryOp) : Reads (.unary op e) := by
  intro least rest _ hrest hstops
  have hopening : opening (op.char :: (e.chars 12 ++ rest)) = some (.unary op, e.chars 12 ++ rest) := by
    cases op <;> rfl
  have hoperand : expression 12 (e.chars 12 ++ rest) = some (e, rest) :=
    h.operand (by decide) hrest hstops
  show expression least (op.char :: (e.chars 12 ++ rest)) = _
  rw [expression, hopening]
  simp only [shorter?_tail, hoperand, shorter?_cons_append, Option.bind_eq_bind, Option.bind_some]

theorem continuation_operator (op : BinaryOp) (s : List Char) :
    continuation (' ' :: (op.text.toList ++ ' ' :: s)) = some (.operator op, s) := by
  cases op <;> rfl

theorem Reads.binary {a b : Expr} (ha : Reads a) (hb : Reads b) (op : BinaryOp) :
    Reads (.binary op a b) := by
  intro least rest hleast hrest hstops
  replace hleast : least ≤ op.strength := hleast
  have hop : 2 ≤ op.strength ∧ op.strength ≤ 11 := by cases op <;> decide
  have htext : (Expr.binary op a b).chars 0 ++ rest =
      a.chars op.strength ++ ' ' :: (op.text.toList ++ ' ' :: (b.chars (op.strength + 1) ++ rest)) := by
    simp [Expr.chars, Expr.within]
  have hnext := continuation_operator op (b.chars (op.strength + 1) ++ rest)
  have hright : expression (op.strength + 1) (b.chars (op.strength + 1) ++ rest) = some (b, rest) :=
    hb.operand (by omega) hrest hstops
  rw [htext, ha.left hop.1 (by omega) (by omega) hleast (apart_of_symbol (by decide) _) hnext (Nat.le_refl _),
    extension, hnext]
  have hlt : rest.length <
      (' ' :: (op.text.toList ++ ' ' :: (b.chars (op.strength + 1) ++ rest))).length := by
    simp only [List.length_cons, List.length_append]
    omega
  simp only [Continuation.strength, if_neg (Nat.not_lt.mpr hleast), shorter?_cons_append_cons, hright,
    shorter?_of_lt hlt, Option.bind_eq_bind, Option.bind_some]

theorem Reads.conditional {a b c : Expr} (hc : Reads c) (ha : Reads a) (hb : Reads b) :
    Reads (.conditional c a b) := by
  intro least rest hleast hrest hstops
  replace hleast : least ≤ 1 := hleast
  have htext : (Expr.conditional c a b).chars 0 ++ rest =
      c.chars 2 ++ ' ' :: '?' :: ' ' :: (a.chars 1 ++ (" : ".toList ++ (b.chars 1 ++ rest))) := by
    simp [Expr.chars, Expr.within]
  have hnext : ∀ s, continuation (' ' :: '?' :: ' ' :: s) = some (.choice, s) := fun _ => rfl
  have hyes : expression 1 (a.chars 1 ++ (" : ".toList ++ (b.chars 1 ++ rest))) =
      some (a, " : ".toList ++ (b.chars 1 ++ rest)) :=
    ha.operand (by decide) (apart_of_symbol (by decide) _) (stops_of_none rfl)
  have hno : expression 1 (b.chars 1 ++ rest) = some (b, rest) := hb.operand (by decide) hrest hstops
  rw [htext, hc.left (by decide) (by decide) (by decide) (by omega) (apart_of_symbol (by decide) _)
    (hnext _) (by decide), extension, hnext]
  generalize hs : ' ' :: '?' :: ' ' :: (a.chars 1 ++ (" : ".toList ++ (b.chars 1 ++ rest))) = s
  have hlt : (a.chars 1 ++ (" : ".toList ++ (b.chars 1 ++ rest))).length < s.length := by
    simp only [← hs, List.length_cons, List.length_append]
    omega
  have hlt' : (b.chars 1 ++ rest).length < s.length := by
    simp only [← hs, List.length_cons, List.length_append]
    omega
  have hlt'' : rest.length < s.length := by
    simp only [← hs, List.length_cons, List.length_append]
    omega
  simp only [Continuation.strength, if_neg (Nat.not_lt.mpr hleast), shorter?_of_lt hlt, hyes,
    after?_append, shorter?_of_lt hlt', hno, shorter?_of_lt hlt'', Option.bind_eq_bind, Option.bind_some]

theorem Reads.field (h : Reads e) {m : String} (hm : Name.isFree m = true) : Reads (.field e m) := by
  intro least rest hleast hrest _
  replace hleast : least ≤ 13 := hleast
  have htext : (Expr.field e m).chars 0 ++ rest = e.chars 13 ++ '.' :: (m.toList ++ rest) := by
    simp [Expr.chars]
  have hnext : ∀ s, continuation ('.' :: s) = some (.member, s) := fun _ => rfl
  have hword : word (m.toList ++ rest) = (m.toList, rest) :=
    word_identifier (Bool.and_eq_true_iff.mp hm).1 hrest.1
  rw [htext, h.left (by decide) (by decide) (by decide) hleast (apart_of_symbol (by decide) _) (hnext _)
    (Nat.le_refl _), extension, hnext]
  simp only [Continuation.strength, if_neg (Nat.not_lt.mpr hleast), shorter?_tail,
    hword, shorter?_cons_append, Option.bind_eq_bind, Option.bind_some, String.ofList_toList]

theorem Reads.starts (h : Reads e) (hs : Apart s) (hstops : Stops 0 s) {c : Char}
    (hc : c ∈ [')', ']']) (t : List Char) : e.chars 0 ++ s ≠ c :: t := by
  intro heq
  have hread := h.operand (by decide) hs hstops
  have hnone : opening (c :: t) = none := by
    simp only [List.mem_cons, List.not_mem_nil, or_false] at hc
    rcases hc with rfl | rfl <;> rfl
  rw [heq, expression, hnone] at hread
  cases hread

theorem Reads.index {i : Expr} (h : Reads e) (hi : Reads i) : Reads (.index e i) := by
  intro least rest hleast hrest _
  replace hleast : least ≤ 13 := hleast
  have htext : (Expr.index e i).chars 0 ++ rest = e.chars 13 ++ '[' :: (i.chars 0 ++ ']' :: rest) := by
    simp [Expr.chars]
  have hnext : ∀ s, continuation ('[' :: s) = some (.position, s) := fun _ => rfl
  have hclosing : Apart (']' :: rest) := apart_of_symbol (by decide) rest
  have hstops : Stops 0 (']' :: rest) := stops_of_closing (by decide) rest
  have hapart : Apart ('[' :: (i.chars 0 ++ ']' :: rest)) := by
    refine ⟨rfl, ?_⟩
    cases hchars : i.chars 0 ++ ']' :: rest with
    | nil => simp at hchars
    | cons c t =>
      have hc : c ≠ ']' := fun hc => hi.starts hclosing hstops (by decide) t (hc ▸ hchars)
      simp [after?, hc.symm]
  have hposition : expression 0 (i.chars 0 ++ ']' :: rest) = some (i, ']' :: rest) :=
    hi.operand (by decide) hclosing hstops
  rw [htext, h.left (by decide) (by decide) (by decide) hleast hapart (hnext _) (Nat.le_refl _), extension,
    hnext]
  have hclosed : after? [']'] (']' :: rest) = some rest := rfl
  simp only [Continuation.strength, if_neg (Nat.not_lt.mpr hleast), shorter?_tail,
    hposition, hclosed, shorter?_cons_append_cons, Option.bind_eq_bind, Option.bind_some]

theorem opening_of_word {w r : List Char} (h : word s = (w, r)) (hw : w ≠ []) : opening s = worded w r := by
  unfold opening
  split
  iterate 5
    cases h
    exact absurd rfl hw
  · rw [h]

theorem reads_of_whole {text : List Char} (htext : e.chars 0 = text)
    (h : ∀ rest, Apart rest → opening (text ++ rest) = some (.whole e, rest)) : Reads e := by
  intro least rest _ hrest _
  have hne : text ≠ [] := by
    rintro rfl
    cases h [] ⟨rfl, rfl⟩
  have hlt : rest.length < (text ++ rest).length := by
    simpa using List.length_pos_iff.mpr hne
  rw [htext, expression, h rest hrest]
  simp only [shorter?_of_lt hlt, Option.bind_eq_bind, Option.bind_some]

theorem isDigit_toDigits (n : Nat) : ∀ c ∈ Nat.toDigits 10 n, c.isDigit = true := fun _ =>
  Nat.isDigit_of_mem_toDigits (by decide) (by decide)

theorem opening_digits (n : Nat) {rest : List Char} (hrest : Apart rest) :
    opening (Nat.toDigits 10 n ++ rest) = some (.whole (.literal (.int (Int32.ofInt n))), rest) := by
  have hword : word (Nat.toDigits 10 n ++ rest) = (Nat.toDigits 10 n, rest) :=
    word_of_ends (fun c hc => Bool.or_eq_true_iff.mpr (.inr (isDigit_toDigits n c hc))) hrest.1
  rw [opening_of_word hword Nat.toDigits_ne_nil, worded, if_neg Nat.toDigits_ne_nil,
    if_pos (List.all_eq_true.mpr (isDigit_toDigits n)), Nat.ofDigitChars_ten_toDigits]

theorem reads_literal {l : Literal} (hl : l.isPlain = true) : Reads (.literal l) := by
  cases l with
  | bool b =>
    refine reads_of_whole rfl fun rest hrest => ?_
    have hword (w : List Char) (hw : w.all isWordChar = true) : word (w ++ rest) = (w, rest) :=
      word_of_ends (List.all_eq_true.mp hw) hrest.1
    cases b with
    | false => exact opening_of_word (hword "false".toList rfl) nofun
    | true => exact opening_of_word (hword "true".toList rfl) nofun
  | int n =>
    obtain ⟨k, hk⟩ := Int.eq_ofNat_of_zero_le (of_decide_eq_true hl)
    have htext : (Expr.literal (.int n)).chars 0 = Nat.toDigits 10 k := by
      show (toString n.toInt).toList = _
      rw [hk]
      exact Nat.toList_repr
    refine reads_of_whole htext fun rest hrest => ?_
    rw [opening_digits k hrest, ← hk, Int32.ofInt_toInt]
  | string t =>
    refine reads_of_whole rfl fun rest _ => ?_
    have hopening : opening ('"' :: (t.toList.flatMap escaped ++ '"' :: rest)) =
        (unquoted (t.toList.flatMap escaped ++ '"' :: rest)).map
          fun (s, r) => (.whole (.text (String.ofList s)), r) := rfl
    have htext : (Expr.literal (.string t)).chars 0 ++ rest =
        '"' :: (t.toList.flatMap escaped ++ '"' :: rest) := by
      simp [Expr.chars, Literal.chars, quoted]
    rw [htext, hopening, unquoted_flatMap_escaped]
    simp only [Option.map_some, String.ofList_toList]
    rfl
  | float | double => cases hl

theorem chars_ne_of_reserved {q : QualifiedName} (hq : q.isFree = true) {n : String} (hn : n ∈ reserved) :
    q.chars ≠ n.toList := by
  intro h
  have hread := QualifiedName.ofText_chars hq
  rw [h, String.ofList_toList] at hread
  have hreserved : ∀ k ∈ reserved, (QualifiedName.ofText k).components = [k] := by decide
  have hcomponents := hreserved n hn
  rw [hread] at hcomponents
  exact QualifiedName.notMem_reserved_of_isFree hq n (hcomponents ▸ List.mem_singleton_self n) hn

theorem not_all_isDigit_chars {q : QualifiedName} (hq : q.isFree = true) :
    ¬q.chars.all Char.isDigit = true := by
  intro hdigits
  rw [List.all_eq_true] at hdigits
  obtain ⟨c, cs, hcs⟩ := QualifiedName.exists_components_of_isFree hq
  have hc : isIdentifier c = true := QualifiedName.isIdentifier_of_isFree hq c (hcs ▸ List.mem_cons_self)
  obtain ⟨d, r, hdr, hd⟩ := QualifiedName.exists_letter_joined hc cs
  have hmem : d ∈ q.chars := by simp [QualifiedName.chars, hcs, hdr]
  exact Bool.false_ne_true ((isDigit_of_isLetter hd).symm.trans (hdigits d hmem))

theorem word_typeName {t : TypeName} (ht : t.isFree = true) (hs : Apart s) :
    ∃ r, word (t.chars ++ s) = (t.name.chars, r) ∧ typeName t.name.chars r = (t, s) := by
  obtain ⟨qualifier, name, array⟩ := t
  simp only [TypeName.isFree, Bool.and_eq_true, decide_eq_true_eq, Bool.or_eq_true] at ht
  obtain ⟨⟨rfl, hname⟩, rfl | rfl⟩ := ht
  · refine ⟨s, ?_, ?_⟩
    · simpa [TypeName.chars] using QualifiedName.word_chars hname hs.1
    · rw [typeName, hs.2, QualifiedName.ofText_chars hname]
  · refine ⟨'[' :: ']' :: s, ?_, ?_⟩
    · have hends : EndsWord ('[' :: ']' :: s) := rfl
      simpa [TypeName.chars] using QualifiedName.word_chars hname hends
    · have hbrackets : after? "[]".toList ('[' :: ']' :: s) = some s := rfl
      rw [typeName, hbrackets]
      simp only [QualifiedName.ofText_chars hname]

theorem reads_reference {t : TypeName} (ht : t.isFree = true) : Reads (.reference t) := by
  refine reads_of_whole rfl fun rest hrest => ?_
  have hname : t.name.isFree = true := by
    simp only [TypeName.isFree, Bool.and_eq_true] at ht
    exact ht.1.2
  obtain ⟨r, hword, hread⟩ := word_typeName ht hrest
  have hne : t.name.chars ≠ [] := fun h => not_all_isDigit_chars hname (h ▸ rfl)
  show opening (t.chars ++ rest) = _
  rw [opening_of_word hword hne, worded, if_neg hne, if_neg (not_all_isDigit_chars hname),
    if_neg (chars_ne_of_reserved hname (by decide)), if_neg (chars_ne_of_reserved hname (by decide)),
    if_neg (chars_ne_of_reserved hname (by decide)), hread]

def Expr.argumentText : Argument Expr → List Char
  | ⟨none, e⟩ => e.chars 0
  | ⟨some n, e⟩ => n.toList ++ ':' :: ' ' :: e.chars 0

theorem Expr.argumentChars_eq_map (as : List (Argument Expr)) :
    argumentChars as = as.map argumentText := by
  induction as with
  | nil => rfl
  | cons a as ih =>
    obtain ⟨_ | n, e⟩ := a <;> rw [argumentChars, ih] <;> rfl

def ReadsArgument (a : Argument Expr) : Prop := Reads a.value ∧ a.name.all Name.isFree = true

theorem ReadsArgument.argument_text {a : Argument Expr} (ha : ReadsArgument a) (hs : Apart s)
    (hstops : Stops 0 s) (hlabel : ∀ e, label? s e = none) :
    argument (Expr.argumentText a ++ s) = some (a, s) := by
  obtain ⟨name, e⟩ := a
  obtain ⟨he, hname⟩ := ha
  have hvalue : expression 0 (e.chars 0 ++ s) = some (e, s) := he.operand (by decide) hs hstops
  cases name with
  | none =>
    rw [Expr.argumentText, argument, hvalue]
    simp only [Option.bind_eq_bind, Option.bind_some, hlabel]
  | some n =>
    let t : TypeName := { name := .simple n }
    have ht : t.isFree = true := by
      have hn : Name.isFree n = true := hname
      simp [t, TypeName.isFree, QualifiedName.isFree, QualifiedName.simple, hn]
    have htext : Expr.argumentText ⟨some n, e⟩ ++ s =
        (Expr.reference t).chars 0 ++ ':' :: ' ' :: (e.chars 0 ++ s) := by
      simp [Expr.argumentText, Expr.chars, TypeName.chars, QualifiedName.chars, QualifiedName.simple,
        QualifiedName.joined, t]
    have hread : expression 0 ((Expr.reference t).chars 0 ++ ':' :: ' ' :: (e.chars 0 ++ s)) =
        some (.reference t, ':' :: ' ' :: (e.chars 0 ++ s)) :=
      (reads_reference ht).operand (by decide) ⟨rfl, rfl⟩ (stops_of_none rfl)
    have hlabelled : label? (':' :: ' ' :: (e.chars 0 ++ s)) (.reference t) =
        some (n, e.chars 0 ++ s) := rfl
    have hlt : (e.chars 0 ++ s).length <
        ((Expr.reference t).chars 0 ++ ':' :: ' ' :: (e.chars 0 ++ s)).length := by
      simp only [List.length_cons, List.length_append]
      omega
    rw [htext, argument, hread]
    simp only [Option.bind_eq_bind, Option.bind_some, hlabelled, shorter?_of_lt hlt, hvalue]

theorem ne_closing_of_argument {a : Argument Expr} {r : List Char} (h : argument s = some (a, r)) :
    ∀ t, s ≠ ')' :: t := by
  rintro t rfl
  have hnone : opening (')' :: t) = none := rfl
  rw [argument, expression, hnone] at h
  cases h

theorem arguments_last {a : Argument Expr} {r : List Char} (h : argument s = some (a, ')' :: r)) :
    arguments s = some ([a], r) := by
  rw [arguments, h]
  · rfl
  · exact ne_closing_of_argument h

theorem arguments_more {a : Argument Expr} {r : List Char} (h : argument s = some (a, ',' :: ' ' :: r))
    (hr : r.length < s.length) :
    arguments s = (arguments r).bind fun (as, r) => some (a :: as, r) := by
  have hcomma : after? ", ".toList (',' :: ' ' :: r) = some r := rfl
  rw [arguments, h]
  · simp only [Option.bind_eq_bind, Option.bind_some]
    show (after? ", ".toList (',' :: ' ' :: r)).bind _ = _
    rw [hcomma, Option.bind_some, shorter?_of_lt hr]
    rfl
  · exact ne_closing_of_argument h

theorem arguments_chars {as : List (Argument Expr)} (has : ∀ a ∈ as, ReadsArgument a)
    (rest : List Char) :
    arguments (commaSeparated (Expr.argumentChars as) ++ ')' :: rest) = some (as, rest) := by
  rw [Expr.argumentChars_eq_map]
  induction as with
  | nil =>
    show arguments (')' :: rest) = _
    rw [arguments]
  | cons a as ih =>
    obtain ⟨ha, has⟩ := List.forall_mem_cons.mp has
    cases as with
    | nil =>
      have hread : argument (Expr.argumentText a ++ ')' :: rest) = some (a, ')' :: rest) :=
        ha.argument_text (apart_of_symbol (by decide) rest) (stops_of_closing (by decide) rest) fun _ => rfl
      exact arguments_last hread
    | cons b bs =>
      have hread : argument (Expr.argumentText a ++
          ',' :: ' ' :: (commaSeparated ((b :: bs).map Expr.argumentText) ++ ')' :: rest)) = _ :=
        ha.argument_text (apart_of_symbol (by decide) _) (stops_of_closing (by decide) _) fun _ => rfl
      have htext : commaSeparated ((a :: b :: bs).map Expr.argumentText) ++ ')' :: rest =
          Expr.argumentText a ++
            ',' :: ' ' :: (commaSeparated ((b :: bs).map Expr.argumentText) ++ ')' :: rest) := by
        simp [commaSeparated]
      have hlt : (commaSeparated ((b :: bs).map Expr.argumentText) ++ ')' :: rest).length <
          (Expr.argumentText a ++
            ',' :: ' ' :: (commaSeparated ((b :: bs).map Expr.argumentText) ++ ')' :: rest)).length := by
        simp only [List.length_cons, List.length_append]
        omega
      rw [htext, arguments_more hread hlt, ih has]
      rfl

theorem Reads.call {callee : Expr} {args : List (Argument Expr)} (h : Reads callee)
    (hargs : ∀ a ∈ args, ReadsArgument a) : Reads (.call callee args) := by
  intro least rest hleast hrest _
  replace hleast : least ≤ 13 := hleast
  have htext : (Expr.call callee args).chars 0 ++ rest =
      callee.chars 13 ++ '(' :: (commaSeparated (Expr.argumentChars args) ++ ')' :: rest) := by
    simp [Expr.chars]
  have hnext : ∀ s, continuation ('(' :: s) = some (.arguments, s) := fun _ => rfl
  rw [htext, h.left (by decide) (by decide) (by decide) hleast (apart_of_symbol (by decide) _) (hnext _)
    (Nat.le_refl _), extension, hnext]
  simp only [Continuation.strength, if_neg (Nat.not_lt.mpr hleast), shorter?_tail,
    arguments_chars hargs, shorter?_cons_append_cons, Option.bind_eq_bind, Option.bind_some]

def ReadsBinding (b : Binding Expr) : Prop :=
  b.type.isFree = true ∧ Name.isFree b.name = true ∧ Reads b.init

theorem declared_chars {t : TypeName} {n : String} (ht : t.isFree = true) (hn : Name.isFree n = true)
    (s : List Char) :
    declared (t.chars ++ ' ' :: (n.toList ++ ' ' :: '=' :: ' ' :: s)) = some ((t, n), s) := by
  have hapart : Apart (' ' :: (n.toList ++ ' ' :: '=' :: ' ' :: s)) := apart_of_symbol (by decide) _
  obtain ⟨r, hword, hread⟩ := word_typeName ht hapart
  have hends : EndsWord (' ' :: '=' :: ' ' :: s) := rfl
  have hname := word_identifier (Bool.and_eq_true_iff.mp hn).1 hends
  have hblank : ∀ u, after? " ".toList (' ' :: u) = some u := fun _ => rfl
  have hequals : after? " = ".toList (' ' :: '=' :: ' ' :: s) = some s := rfl
  simp only [declared, hword, hread, Option.bind_eq_bind, hblank, Option.bind_some, hname, hequals,
    String.ofList_toList]

theorem Expr.bindingChars_cons (b : Binding Expr) (bs : List (Binding Expr)) :
    bindingChars (b :: bs) = "    ".toList ++ b.type.chars ++ ' ' :: b.name.toList ++ " = ".toList ++
      b.init.chars 0 ++ ";\n".toList ++ bindingChars bs := rfl

theorem bindings_chars {bs : List (Binding Expr)} (hbs : ∀ b ∈ bs, ReadsBinding b) (rest : List Char) :
    bindings (Expr.bindingChars bs ++ ("\x7d in ".toList ++ rest)) = some (bs, rest) := by
  induction bs with
  | nil =>
    rw [bindings]
    rfl
  | cons b bs ih =>
    obtain ⟨⟨ht, hn, he⟩, hrest⟩ := List.forall_mem_cons.mp hbs
    have hremaining := ih hrest
    generalize hr : Expr.bindingChars bs ++ ("\x7d in ".toList ++ rest) = r at hremaining
    have htext : Expr.bindingChars (b :: bs) ++ ("\x7d in ".toList ++ rest) =
        "    ".toList ++ (b.type.chars ++ ' ' :: (b.name.toList ++ ' ' :: '=' :: ' ' ::
          (b.init.chars 0 ++ ';' :: '\n' :: r))) := by
      rw [← hr, Expr.bindingChars_cons]
      simp
    have hvalue : expression 0 (b.init.chars 0 ++ ';' :: '\n' :: r) = some (b.init, ';' :: '\n' :: r) :=
      he.operand (by decide) (apart_of_symbol (by decide) _) (stops_of_closing (by decide) _)
    have hend : after? ";\n".toList (';' :: '\n' :: r) = some r := rfl
    rw [htext, bindings, after?_append]
    generalize hs : "    ".toList ++ (b.type.chars ++ ' ' :: (b.name.toList ++ ' ' :: '=' :: ' ' ::
      (b.init.chars 0 ++ ';' :: '\n' :: r))) = s
    have hlt : (b.init.chars 0 ++ ';' :: '\n' :: r).length < s.length := by
      simp only [← hs, List.length_cons, List.length_append]
      omega
    have hlt' : r.length < s.length := by
      simp only [← hs, List.length_cons, List.length_append]
      omega
    simp only [declared_chars ht hn, shorter?_of_lt hlt, hvalue, hend, shorter?_of_lt hlt', hremaining,
      Option.bind_eq_bind, Option.bind_some]

theorem Reads.letIn {bs : List (Binding Expr)} (hbs : ∀ b ∈ bs, ReadsBinding b) (h : Reads e) :
    Reads (.letIn bs e) := by
  intro least rest _ hrest hstops
  have htext : (Expr.letIn bs e).chars 0 ++ rest =
      'l' :: 'e' :: 't' :: ' ' :: '\x7b' :: '\n' ::
        (Expr.bindingChars bs ++ ("\x7d in ".toList ++ (e.chars 0 ++ rest))) := by
    simp [Expr.chars, Expr.within]
  have hopening : ∀ s, opening ('l' :: 'e' :: 't' :: ' ' :: '\x7b' :: '\n' :: s) = some (.locals, s) :=
    fun _ => rfl
  have hbody : expression 0 (e.chars 0 ++ rest) = some (e, rest) := h.operand (by decide) hrest hstops
  rw [htext, expression, hopening]
  generalize hs : 'l' :: 'e' :: 't' :: ' ' :: '\x7b' :: '\n' ::
    (Expr.bindingChars bs ++ ("\x7d in ".toList ++ (e.chars 0 ++ rest))) = s
  have hlt : (Expr.bindingChars bs ++ ("\x7d in ".toList ++ (e.chars 0 ++ rest))).length < s.length := by
    simp only [← hs, List.length_cons, List.length_append]
    omega
  have hlt' : (e.chars 0 ++ rest).length < s.length := by
    simp only [← hs, List.length_cons, List.length_append]
    omega
  have hlt'' : rest.length < s.length := by
    simp only [← hs, List.length_cons, List.length_append]
    omega
  simp only [shorter?_of_lt hlt, bindings_chars hbs, shorter?_of_lt hlt', hbody, shorter?_of_lt hlt'',
    Option.bind_eq_bind, Option.bind_some]

namespace Expr

mutual

/-- Every plain expression is read back. -/
theorem reads_of_isPlain : (e : Expr) → e.isPlain = true → Reads e
  | .literal _, h => reads_literal h
  | .reference _, h => reads_reference h
  | .call callee args, h => by
    obtain ⟨hcallee, hargs⟩ := Bool.and_eq_true_iff.mp h
    exact (reads_of_isPlain callee hcallee).call (readsArgument_of_plain args hargs)
  | .unary op e, h => (reads_of_isPlain e h).unary op
  | .binary op a b, h => by
    obtain ⟨ha, hb⟩ := Bool.and_eq_true_iff.mp h
    exact (reads_of_isPlain a ha).binary (reads_of_isPlain b hb) op
  | .conditional c a b, h => by
    obtain ⟨hca, hb⟩ := Bool.and_eq_true_iff.mp h
    obtain ⟨hc, ha⟩ := Bool.and_eq_true_iff.mp hca
    exact (reads_of_isPlain c hc).conditional (reads_of_isPlain a ha) (reads_of_isPlain b hb)
  | .field e _, h => by
    obtain ⟨he, hm⟩ := Bool.and_eq_true_iff.mp h
    exact (reads_of_isPlain e he).field hm
  | .index e i, h => by
    obtain ⟨he, hi⟩ := Bool.and_eq_true_iff.mp h
    exact (reads_of_isPlain e he).index (reads_of_isPlain i hi)
  | .letIn bs e, h => by
    obtain ⟨hbs, he⟩ := Bool.and_eq_true_iff.mp h
    exact Reads.letIn (readsBinding_of_plain bs hbs) (reads_of_isPlain e he)

theorem readsArgument_of_plain : (as : List (Argument Expr)) → argumentsPlain as = true →
    ∀ a ∈ as, ReadsArgument a
  | [], _ => nofun
  | ⟨_, e⟩ :: rest, h => by
    obtain ⟨ha, hrest⟩ := Bool.and_eq_true_iff.mp h
    obtain ⟨hn, he⟩ := Bool.and_eq_true_iff.mp ha
    exact List.forall_mem_cons.mpr ⟨⟨reads_of_isPlain e he, hn⟩, readsArgument_of_plain rest hrest⟩

theorem readsBinding_of_plain : (bs : List (Binding Expr)) → bindingsPlain bs = true →
    ∀ b ∈ bs, ReadsBinding b
  | [], _ => nofun
  | ⟨_, _, e⟩ :: rest, h => by
    obtain ⟨hb, hrest⟩ := Bool.and_eq_true_iff.mp h
    obtain ⟨htn, he⟩ := Bool.and_eq_true_iff.mp hb
    obtain ⟨ht, hn⟩ := Bool.and_eq_true_iff.mp htn
    exact List.forall_mem_cons.mpr ⟨⟨ht, hn, reads_of_isPlain e he⟩, readsBinding_of_plain rest hrest⟩

end

/-- Reading the text of an expression gives the expression. -/
theorem expression_format {e : Expr} (he : e.isPlain = true) :
    expression 0 e.format.toList = some (e, []) := by
  have hread : expression 0 (e.chars 0 ++ []) = some (e, []) :=
    (reads_of_isPlain e he).operand (by decide) ⟨rfl, rfl⟩ (stops_of_none rfl)
  rwa [List.append_nil, ← String.toList_ofList (l := e.chars 0)] at hread

/-- No two expressions have the same text: where parentheses are left out, the strengths of the
operators decide how the text is read. -/
theorem eq_of_format_eq {a b : Expr} (ha : a.isPlain = true) (hb : b.isPlain = true)
    (h : a.format = b.format) : a = b := by
  have hread := expression_format ha
  rw [h, expression_format hb] at hread
  cases hread
  rfl

theorem eq_of_format_eq_differences :
    let a := [ofName "b", .binary .sub (ofName "c") (ofName "d")].foldl (.binary .sub) (ofName "a")
    let b := .binary .sub (.binary .sub (ofName "a") (ofName "b"))
      (.binary .sub (ofName "c") (ofName "d"))
    a.format = "a - b - (c - d)" ∧ b.format = "a - b - (c - d)" ∧ a = b :=
  ⟨by decide, by decide, eq_of_format_eq (by decide) (by decide) (by decide)⟩

end Expr

end MaterialModules.Source
