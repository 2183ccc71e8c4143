import Saad.General.Utf8
import Saad.Json.ParsesRight

/-! # The strings of a value are UTF-8

A text is UTF-8 outside of its escapes. The bytes of a code point are UTF-8 unless it is a surrogate, so a
string stays well-formed if and only if the parser writes none. It writes one for a surrogate that is
alone, and for a high one that it takes with the high one in front of it.
-/

namespace Saad.Json

open General

section Characters

variable {state : Utf8.State} {n : ℕ}

/-- A first byte of two bytes or more, as `utf8` writes it. -/
theorem step_ofNat {byte : ℕ} (long : 0xC2 ≤ byte) (small : byte < 0x100) :
    Utf8.step state (BitVec.ofNat 8 byte) =
      if state = .first then Utf8.lead (BitVec.ofNat 8 byte) else none := by
  by_cases between : state = .first
  · rw [if_pos between, between, Utf8.step_first]
  · rw [if_neg between]
    apply Utf8.step_eq_none between
    rw [BitVec.toNat_ofNat, Nat.mod_eq_of_lt (by omega)]
    omega

/-- A continuation byte as `utf8` writes it. -/
theorem continuation_ofNat {low high bits : ℕ} {next : Utf8.State} (small : bits < 0x40) :
    Utf8.continuation low high next (BitVec.ofNat 8 (0x80 + bits)) =
      if low ≤ 0x80 + bits ∧ 0x80 + bits ≤ high then some next else none := by
  rw [Utf8.continuation, BitVec.toNat_ofNat, Nat.mod_eq_of_lt (by omega)]

/-- What is left of a character is the same behind its second byte, whatever the first one was. -/
theorem step_bits {bits : ℕ} (small : bits < 0x40) :
    Utf8.step .last (BitVec.ofNat 8 (0x80 + bits)) = some .first ∧
      Utf8.step .lastTwo (BitVec.ofNat 8 (0x80 + bits)) = some .last ∧
      Utf8.step .lastThree (BitVec.ofNat 8 (0x80 + bits)) = some .lastTwo := by
  simp only [Utf8.step]
  refine ⟨?_, ?_, ?_⟩
  all_goals rw [continuation_ofNat small, if_pos (by omega)]

theorem run_twoBytes (least : 0x80 ≤ n) (most : n < 0x800) (rest : Text) :
    Utf8.run .first (utf8 n ++ rest) = Utf8.run .first rest := by
  have first : Utf8.lead (BitVec.ofNat 8 (0xC0 + n / 0x40)) = some .last := by
    rw [Utf8.lead, BitVec.toNat_ofNat, Nat.mod_eq_of_lt (by omega)]
    split_ifs <;> first | rfl | omega
  have last := (step_bits (show n % 0x40 < 0x40 by omega)).1
  rw [utf8, if_neg (by omega), if_pos most]
  simp only [List.cons_append, List.nil_append, Utf8.run_cons, Utf8.step_first, first, last,
    Option.bind_some]

theorem run_threeBytes (least : 0x800 ≤ n) (most : n < 0x10000) (rest : Text) :
    Utf8.run .first (utf8 n ++ rest) =
      if IsHigh n ∨ IsLow n then none else Utf8.run .first rest := by
  have surrogate_iff : (IsHigh n ∨ IsLow n) ↔ n / 0x1000 = 13 ∧ 0x20 ≤ n / 0x40 % 0x40 := by
    unfold IsHigh IsLow
    omega
  have lead_eq : Utf8.lead (BitVec.ofNat 8 (0xE0 + n / 0x1000)) =
      if n / 0x1000 = 0 then some .afterE0 else if n / 0x1000 = 13 then some .afterED
      else some .lastTwo := by
    rw [Utf8.lead, BitVec.toNat_ofNat, Nat.mod_eq_of_lt (by omega)]
    split_ifs <;> first | rfl | omega
  -- The second byte has the bits that tell a surrogate.
  have second : (Utf8.lead (BitVec.ofNat 8 (0xE0 + n / 0x1000))).bind (fun next =>
      Utf8.step next (BitVec.ofNat 8 (0x80 + n / 0x40 % 0x40))) =
        if IsHigh n ∨ IsLow n then none else some .last := by
    rw [lead_eq]
    simp only [surrogate_iff]
    have step_eq := fun low high next => @continuation_ofNat low high (n / 0x40 % 0x40) next (by omega)
    split_ifs <;> simp only [Option.bind_some, Utf8.step, step_eq] <;>
      first | omega | rw [if_pos (by omega)] | rw [if_neg (by omega)]
  have last := (step_bits (show n % 0x40 < 0x40 by omega)).1
  rw [utf8, if_neg (by omega), if_neg (by omega), if_pos most]
  simp only [List.cons_append, List.nil_append, Utf8.run_cons, Utf8.step_first]
  rw [← Option.bind_assoc, second]
  split_ifs
  · rfl
  · simp only [Option.bind_some, last]

theorem run_fourBytes (least : 0x10000 ≤ n) (most : n < 0x110000) (rest : Text) :
    Utf8.run .first (utf8 n ++ rest) = Utf8.run .first rest := by
  have lead_eq : Utf8.lead (BitVec.ofNat 8 (0xF0 + n / 0x40000)) =
      if n / 0x40000 = 0 then some .afterF0 else if n / 0x40000 = 4 then some .afterF4
      else some .lastThree := by
    rw [Utf8.lead, BitVec.toNat_ofNat, Nat.mod_eq_of_lt (by omega)]
    split_ifs <;> first | rfl | omega
  -- The second byte has the bits that decide whether the code point is in range.
  have second : (Utf8.lead (BitVec.ofNat 8 (0xF0 + n / 0x40000))).bind (fun next =>
      Utf8.step next (BitVec.ofNat 8 (0x80 + n / 0x1000 % 0x40))) = some .lastTwo := by
    rw [lead_eq]
    split_ifs <;> simp only [Option.bind_some, Utf8.step] <;>
      rw [continuation_ofNat (by omega), if_pos (by omega)]
  have third := (step_bits (show n / 0x40 % 0x40 < 0x40 by omega)).2.1
  have last := (step_bits (show n % 0x40 < 0x40 by omega)).1
  rw [utf8, if_neg (by omega), if_neg (by omega), if_neg (by omega)]
  simp only [List.cons_append, List.nil_append, Utf8.run_cons, Utf8.step_first]
  rw [← Option.bind_assoc, second]
  simp only [Option.bind_some, third, last]

/-- The bytes of a code point are a character, if it isn't a surrogate. -/
theorem run_utf8 (code : n < 0x110000) (rest : Text) :
    Utf8.run state (utf8 n ++ rest) =
      if state = .first ∧ ¬(IsHigh n ∨ IsLow n) then Utf8.run .first rest else none := by
  by_cases between : state = .first
  · subst between
    simp only [true_and, ite_not]
    by_cases one : n < 0x80
    · have ascii : (BitVec.ofNat 8 n).toNat < 0x80 := by
        rw [BitVec.toNat_ofNat]
        omega
      rw [utf8, if_pos one, List.singleton_append, Utf8.run_cons, Utf8.step_ascii ascii, if_pos rfl,
        Option.bind_some, if_neg (by unfold IsHigh IsLow; omega)]
    by_cases two : n < 0x800
    · rw [run_twoBytes (by omega) two, if_neg (by unfold IsHigh IsLow; omega)]
    by_cases three : n < 0x10000
    · exact run_threeBytes (by omega) three rest
    · rw [run_fourBytes (by omega) code, if_neg (by unfold IsHigh IsLow; omega)]
  · rw [if_neg fun both => between both.1, utf8]
    split_ifs
    · have ascii : (BitVec.ofNat 8 n).toNat < 0x80 := by
        rw [BitVec.toNat_ofNat]
        omega
      rw [List.singleton_append, Utf8.run_cons, Utf8.step_ascii ascii, if_neg between, Option.bind_none]
    all_goals
      rw [List.cons_append, Utf8.run_cons, step_ofNat (by omega) (by omega), if_neg between,
        Option.bind_none]

end Characters

section Strings

variable {state : Utf8.State} {parts : List Part} {n : ℕ}

/-- The byte of a part, or one of its escape. -/
def Part.mark : Part → BitVec 8
  | .byte b => b
  | .unit _ => byteOf 'u'

/-- The bytes of a unit that isn't part of a pair. -/
def alone (n : ℕ) : Text := if IsHigh n ∨ IsLow n then utf8 0xFFFD else utf8 n

/-- The bytes of a string with each surrogate pair replaced by its code point and every other surrogate
by the replacement character. -/
def decoded : List Part → Text
  | [] => []
  | .byte b :: parts => b :: decoded parts
  | .unit high :: .unit low :: parts =>
    if IsHigh high ∧ IsLow low then utf8 (pairCode high low) ++ decoded parts
    else alone high ++ decoded (.unit low :: parts)
  | .unit n :: parts => alone n ++ decoded parts

/-- Each surrogate is in a pair, or it is a high one in front of a unit that is no surrogate. -/
def SurrogatesOrdered : List Part → Prop
  | [] => True
  | .byte _ :: parts => SurrogatesOrdered parts
  | .unit high :: .unit low :: parts =>
    if IsHigh high then ¬IsHigh low ∧ SurrogatesOrdered parts
    else ¬IsLow high ∧ SurrogatesOrdered (.unit low :: parts)
  | .unit n :: parts => ¬IsHigh n ∧ ¬IsLow n ∧ SurrogatesOrdered parts

def UnitsSmall (parts : List Part) : Prop := ∀ n, .unit n ∈ parts → n < 0x10000

theorem UnitsSmall.tail {part : Part} (small : UnitsSmall (part :: parts)) : UnitsSmall parts :=
  fun n inside => small n (List.mem_cons_of_mem _ inside)

theorem run_mark (n : ℕ) :
    Utf8.run state ((Part.unit n :: parts).map Part.mark) =
      if state = .first then Utf8.run .first (parts.map Part.mark) else none := by
  rw [List.map_cons, Utf8.run_cons, Part.mark, Utf8.step_ascii (by decide)]
  by_cases between : state = .first
  · rw [if_pos between, if_pos between, Option.bind_some]
  · rw [if_neg between, if_neg between, Option.bind_none]

theorem first_of_run_mark (raw : Utf8.run state ((Part.unit n :: parts).map Part.mark) = some .first) :
    state = .first ∧ Utf8.run .first (parts.map Part.mark) = some .first := by
  rw [run_mark] at raw
  by_cases between : state = .first
  · exact ⟨between, by rw [if_pos between] at raw; exact raw⟩
  · rw [if_neg between] at raw
    cases raw

theorem run_alone (small : n < 0x10000) (rest : Text) :
    Utf8.run .first (alone n ++ rest) = Utf8.run .first rest := by
  rw [alone]
  by_cases surrogate : IsHigh n ∨ IsLow n
  · rw [if_pos surrogate, run_utf8 (by decide), if_pos ⟨rfl, by decide⟩]
  · rw [if_neg surrogate, run_utf8 (by omega), if_pos ⟨rfl, surrogate⟩]

theorem pairCode_bounds {high low : ℕ} (is_high : IsHigh high) (is_low : IsLow low) :
    0x10000 ≤ pairCode high low ∧ pairCode high low < 0x110000 := by
  obtain ⟨_, _⟩ := is_high
  obtain ⟨_, _⟩ := is_low
  unfold pairCode
  omega

theorem run_pair {high low : ℕ} (is_high : IsHigh high) (is_low : IsLow low) (rest : Text) :
    Utf8.run .first (utf8 (pairCode high low) ++ rest) = Utf8.run .first rest := by
  have bounds := pairCode_bounds is_high is_low
  rw [run_utf8 bounds.2, if_pos ⟨rfl, by unfold IsHigh IsLow; omega⟩]

/-- What a string should be is UTF-8, if its own bytes are. -/
theorem run_decoded (small : UnitsSmall parts)
    (raw : Utf8.run state (parts.map Part.mark) = some .first) :
    Utf8.run state (decoded parts) = some .first := by
  fun_induction decoded parts generalizing state with
  | case1 => exact raw
  | case2 b parts ih =>
    rw [List.map_cons, Utf8.run_cons, Part.mark] at raw
    rw [Utf8.run_cons]
    cases next : Utf8.step state b with
    | none =>
      rw [next] at raw
      cases raw
    | some after =>
      rw [next, Option.bind_some] at raw
      exact ih small.tail raw
  | case3 high low parts pair ih =>
    obtain ⟨rfl, behind⟩ := first_of_run_mark raw
    rw [run_pair pair.1 pair.2]
    exact ih small.tail.tail (first_of_run_mark behind).2
  | case4 high low parts no_pair ih =>
    obtain ⟨rfl, behind⟩ := first_of_run_mark raw
    rw [run_alone (small high List.mem_cons_self)]
    exact ih small.tail behind
  | case5 n parts no_unit ih =>
    obtain ⟨rfl, behind⟩ := first_of_run_mark raw
    rw [run_alone (small n List.mem_cons_self)]
    exact ih small.tail behind

theorem decoded_unit (no_high : ¬IsHigh n) : decoded (.unit n :: parts) = alone n ++ decoded parts := by
  cases parts with
  | nil => rfl
  | cons part parts =>
    cases part with
    | byte b => rfl
    | unit low => rw [decoded, if_neg fun pair => no_high pair.1]

/-- The parser gives what a string should be, if its surrogates are in order. -/
theorem replaceUnits_eq_decoded (ordered : SurrogatesOrdered parts) :
    replaceUnits parts = decoded parts := by
  fun_induction replaceUnits parts with
  | case1 => rfl
  | case2 b parts ih => rw [decoded, ih ordered]
  | case3 high low parts is_high is_low ih =>
    rw [SurrogatesOrdered, if_pos is_high] at ordered
    rw [decoded, if_pos ⟨is_high, is_low⟩, ih ordered.2]
  | case4 high low parts is_high no_low ih =>
    rw [SurrogatesOrdered, if_pos is_high] at ordered
    have plain : alone low = utf8 low := if_neg fun surrogate => surrogate.elim ordered.1 no_low
    rw [decoded, if_neg fun pair => no_low pair.2, decoded_unit ordered.1, ih ordered.2, plain, alone,
      if_pos (.inl is_high), List.append_assoc]
  | case5 high low parts no_high ih =>
    rw [SurrogatesOrdered, if_neg no_high] at ordered
    have plain : alone high = utf8 high := if_neg fun surrogate => surrogate.elim no_high ordered.1
    rw [decoded_unit no_high, plain, ih ordered.2]
  | case6 n parts no_unit ih =>
    rw [SurrogatesOrdered] at ordered
    · have plain : alone n = utf8 n := if_neg fun surrogate => surrogate.elim ordered.1 ordered.2.1
      rw [decoded_unit ordered.1, plain, ih ordered.2.2]
    · exact no_unit

/-- The parser writes UTF-8 if and only if the surrogates are in order. -/
theorem run_replaceUnits_iff (small : UnitsSmall parts)
    (raw : Utf8.run state (parts.map Part.mark) = some .first) :
    Utf8.run state (replaceUnits parts) = some .first ↔ SurrogatesOrdered parts := by
  constructor
  · intro run
    fun_induction replaceUnits parts generalizing state with
    | case1 => trivial
    | case2 b parts ih =>
      rw [Utf8.run_cons] at run
      rw [List.map_cons, Utf8.run_cons, Part.mark] at raw
      cases next : Utf8.step state b with
      | none =>
        rw [next] at raw
        cases raw
      | some after =>
        rw [next, Option.bind_some] at raw run
        exact ih small.tail raw run
    | case3 high low parts is_high is_low ih =>
      obtain ⟨rfl, behind⟩ := first_of_run_mark raw
      rw [run_pair is_high is_low] at run
      rw [SurrogatesOrdered, if_pos is_high]
      exact ⟨fun high => high.not_low is_low, ih small.tail.tail (first_of_run_mark behind).2 run⟩
    | case4 high low parts is_high no_low ih =>
      obtain ⟨rfl, behind⟩ := first_of_run_mark raw
      have low_small := small.tail low List.mem_cons_self
      rw [List.append_assoc, run_utf8 (by decide), if_pos ⟨rfl, by decide⟩, run_utf8 (by omega)] at run
      rw [SurrogatesOrdered, if_pos is_high]
      by_cases surrogate : IsHigh low ∨ IsLow low
      · rw [if_neg fun both => both.2 surrogate] at run
        cases run
      · rw [if_pos ⟨rfl, surrogate⟩] at run
        exact ⟨fun high => surrogate (.inl high),
          ih small.tail.tail (first_of_run_mark behind).2 run⟩
    | case5 high low parts no_high ih =>
      obtain ⟨rfl, behind⟩ := first_of_run_mark raw
      have high_small := small high List.mem_cons_self
      rw [run_utf8 (by omega)] at run
      rw [SurrogatesOrdered, if_neg no_high]
      by_cases surrogate : IsHigh high ∨ IsLow high
      · rw [if_neg fun both => both.2 surrogate] at run
        cases run
      · rw [if_pos ⟨rfl, surrogate⟩] at run
        exact ⟨fun low => surrogate (.inr low), ih small.tail behind run⟩
    | case6 n parts no_unit ih =>
      obtain ⟨rfl, behind⟩ := first_of_run_mark raw
      have n_small := small n List.mem_cons_self
      rw [run_utf8 (by omega)] at run
      rw [SurrogatesOrdered]
      · by_cases surrogate : IsHigh n ∨ IsLow n
        · rw [if_neg fun both => both.2 surrogate] at run
          cases run
        · rw [if_pos ⟨rfl, surrogate⟩] at run
          exact ⟨fun high => surrogate (.inl high), fun low => surrogate (.inr low),
            ih small.tail behind run⟩
      · exact no_unit
  · intro ordered
    rw [replaceUnits_eq_decoded ordered]
    exact run_decoded small raw

end Strings

end Saad.Json
