import Mathlib.Data.BitVec

/-! # Well-formed UTF-8

The table of well-formed byte sequences as an automaton over the bytes: after a first byte it waits for as
many continuation bytes as belong to it, and the first of them may be in a shorter range. So no longer
form than needed, no surrogate and nothing above U+10FFFF is taken. A text is well-formed if the automaton
is not in the middle of a character behind it.
-/

namespace Saad.General

namespace Utf8

/-- What may come next: the first byte of a character, or what is left of one. -/
inductive State where
  | first
  | last
  | lastTwo
  | lastThree
  | afterE0
  | afterED
  | afterF0
  | afterF4
deriving DecidableEq, Repr

/-- The state behind the first byte of a character. -/
def lead (byte : BitVec 8) : Option State :=
  let b := byte.toNat
  if b < 0x80 then some .first
  else if b < 0xC2 then none
  else if b < 0xE0 then some .last
  else if b = 0xE0 then some .afterE0
  else if b = 0xED then some .afterED
  else if b < 0xF0 then some .lastTwo
  else if b = 0xF0 then some .afterF0
  else if b < 0xF4 then some .lastThree
  else if b = 0xF4 then some .afterF4
  else none

/-- The state behind a byte in a range of continuation bytes. -/
def continuation (low high : ℕ) (next : State) (byte : BitVec 8) : Option State :=
  if low ≤ byte.toNat ∧ byte.toNat ≤ high then some next else none

def step : State → BitVec 8 → Option State
  | .first => lead
  | .last => continuation 0x80 0xBF .first
  | .lastTwo => continuation 0x80 0xBF .last
  | .lastThree => continuation 0x80 0xBF .lastTwo
  | .afterE0 => continuation 0xA0 0xBF .last
  | .afterED => continuation 0x80 0x9F .last
  | .afterF0 => continuation 0x90 0xBF .lastTwo
  | .afterF4 => continuation 0x80 0x8F .lastTwo

/-- The state behind a text. -/
def run (state : State) (text : List (BitVec 8)) : Option State := text.foldlM step state

def WellFormed (text : List (BitVec 8)) : Prop := run .first text = some .first

instance (text : List (BitVec 8)) : Decidable (WellFormed text) := inferInstanceAs (Decidable (_ = _))

variable {state : State} {byte : BitVec 8} {text rest : List (BitVec 8)}

@[simp] theorem run_cons : run state (byte :: rest) = (step state byte).bind fun next => run next rest := rfl

theorem step_first (byte : BitVec 8) : step .first byte = lead byte := rfl

/-- Only continuation bytes go on in the middle of a character. -/
theorem step_eq_none (middle : state ≠ .first) (outside : byte.toNat < 0x80 ∨ 0xBF < byte.toNat) :
    step state byte = none := by
  have refused : ∀ low high next, 0x80 ≤ low → high ≤ 0xBF → continuation low high next byte = none := by
    intro low high next least most
    rw [continuation, if_neg (by omega)]
  cases state with
  | first => exact absurd rfl middle
  | last => exact refused _ _ _ (by decide) (by decide)
  | lastTwo => exact refused _ _ _ (by decide) (by decide)
  | lastThree => exact refused _ _ _ (by decide) (by decide)
  | afterE0 => exact refused _ _ _ (by decide) (by decide)
  | afterED => exact refused _ _ _ (by decide) (by decide)
  | afterF0 => exact refused _ _ _ (by decide) (by decide)
  | afterF4 => exact refused _ _ _ (by decide) (by decide)

/-- A byte of ASCII is a character of its own. -/
theorem step_ascii (ascii : byte.toNat < 0x80) :
    step state byte = if state = .first then some .first else none := by
  by_cases between : state = .first
  · subst between
    rw [step_first, lead, if_pos ascii, if_pos rfl]
  · rw [step_eq_none between (.inl ascii), if_neg between]

end Utf8

end Saad.General
