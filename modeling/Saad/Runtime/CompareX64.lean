import Saad.Runtime.X64Code

/-! # The order of strings

Strings are ordered by their bytes as signed numbers, and a shorter one comes before a longer one that
starts with it. This is the order of the lists of the numbers.
-/

namespace Saad

/-- -1, 0 or 1 for the first string before, at or behind the second one. -/
def compareBytes : Text → Text → ℤ
  | [], [] => 0
  | [], _ :: _ => -1
  | _ :: _, [] => 1
  | x :: a, y :: b => if x = y then compareBytes a b else if x.slt y then -1 else 1

def signedBytes (text : Text) : List ℤ := text.map BitVec.toInt

theorem compareBytes_lex (a b : Text) : compareBytes a b = -1 ∧ signedBytes a < signedBytes b ∨
    compareBytes a b = 0 ∧ a = b ∨ compareBytes a b = 1 ∧ signedBytes b < signedBytes a := by
  fun_induction compareBytes a b with
  | case1 => exact .inr (.inl ⟨rfl, rfl⟩)
  | case2 y b => exact .inl ⟨rfl, List.Lex.nil⟩
  | case3 x a => exact .inr (.inr ⟨rfl, List.Lex.nil⟩)
  | case4 a y b ih =>
    obtain ⟨sign, less⟩ | ⟨sign, rfl⟩ | ⟨sign, more⟩ := ih
    · exact .inl ⟨sign, List.Lex.cons less⟩
    · exact .inr (.inl ⟨sign, rfl⟩)
    · exact .inr (.inr ⟨sign, List.Lex.cons more⟩)
  | case5 x a y b apart less => exact .inl ⟨rfl, List.Lex.rel (BitVec.slt_iff_toInt_lt.mp less)⟩
  | case6 x a y b apart not_less =>
    have more : y.toInt < x.toInt := by
      have differ : x.toInt ≠ y.toInt := fun same => apart (BitVec.eq_of_toInt_eq same)
      rw [BitVec.slt_iff_toInt_lt] at not_less
      omega
    exact .inr (.inr ⟨rfl, List.Lex.rel more⟩)

section Order

variable {a b c : Text}

theorem compareBytes_of_lt (before : signedBytes a < signedBytes b) :
    compareBytes a b = -1 ∧ compareBytes b a = 1 := by
  constructor
  · obtain ⟨sign, -⟩ | ⟨-, same⟩ | ⟨-, more⟩ := compareBytes_lex a b
    · exact sign
    · exact absurd before (same ▸ lt_irrefl _)
    · exact absurd before more.asymm
  · obtain ⟨-, less⟩ | ⟨-, same⟩ | ⟨sign, -⟩ := compareBytes_lex b a
    · exact absurd before less.asymm
    · exact absurd before (same ▸ lt_irrefl _)
    · exact sign

theorem compareBytes_self (a : Text) : compareBytes a a = 0 := by
  obtain ⟨-, less⟩ | ⟨sign, -⟩ | ⟨-, more⟩ := compareBytes_lex a a
  · exact absurd less (lt_irrefl _)
  · exact sign
  · exact absurd more (lt_irrefl _)

theorem compareBytes_eq_zero_iff : compareBytes a b = 0 ↔ a = b := by
  constructor
  · intro zero
    obtain ⟨sign, -⟩ | ⟨-, same⟩ | ⟨sign, -⟩ := compareBytes_lex a b
    · omega
    · exact same
    · omega
  · rintro rfl
    exact compareBytes_self a

theorem compareBytes_neg_iff : compareBytes a b < 0 ↔ signedBytes a < signedBytes b := by
  constructor
  · intro negative
    obtain ⟨-, less⟩ | ⟨sign, -⟩ | ⟨sign, -⟩ := compareBytes_lex a b
    · exact less
    · omega
    · omega
  · intro less
    rw [(compareBytes_of_lt less).1]
    decide

theorem compareBytes_swap (a b : Text) : compareBytes a b = -compareBytes b a := by
  obtain ⟨-, less⟩ | ⟨-, rfl⟩ | ⟨-, more⟩ := compareBytes_lex a b
  · rw [(compareBytes_of_lt less).1, (compareBytes_of_lt less).2]
  · rw [compareBytes_self]
    rfl
  · rw [(compareBytes_of_lt more).1, (compareBytes_of_lt more).2]
    rfl

theorem compareBytes_trans (first : compareBytes a b < 0) (second : compareBytes b c < 0) :
    compareBytes a c < 0 :=
  compareBytes_neg_iff.mpr ((compareBytes_neg_iff.mp first).trans (compareBytes_neg_iff.mp second))

/-- A string is before a longer one that it starts. -/
theorem compareBytes_prefix (a : Text) {more : Text} (longer : more ≠ []) : compareBytes a (a ++ more) < 0 := by
  induction a with
  | nil =>
    cases more with
    | nil => exact absurd rfl longer
    | cons y more => exact neg_one_lt_zero
  | cons x a ih =>
    rw [List.cons_append, compareBytes, if_pos rfl]
    exact ih

end Order

end Saad

/-! # The comparison of strings for x64

The loop compares byte by byte up to the end of the shorter string. It stops with the sign of the first two
bytes that differ, or with that of the lengths.
-/

namespace Saad

open General

/-- The lines of the text. -/
def x64RuntimeCompareStrings : List String :=
  ["\n$runtime_compare_strings:\n",
    "\tmov         r8, qword [rcx+8]\n",
    "\tmov         r9, qword [rdx+8]\n",
    "\tmov         r10, qword [rcx]\n",
    "\tmov         r11, qword [rdx]\n",
    "\txor         eax, eax\n",
    ".Lloop:\n",
    "\tcmp         rax, r8\n",
    "\tjge         .Lend\n",
    "\tcmp         rax, r9\n",
    "\tjge         .Lend\n",
    "\tmovsx       ecx, byte [r10 + rax]\n",
    "\tmovsx       edx, byte [r11 + rax]\n",
    "\tcmp         ecx, edx\n",
    "\tjne         .Ldiffer\n",
    "\tadd         rax, 1\n",
    "\tjmp         .Lloop\n",
    ".Ldiffer:\n",
    "\tmov         eax, 1\n",
    "\tjg          .Lreturn\n",
    "\tmov         eax, -1\n",
    ".Lreturn:\n",
    "\tret\n",
    ".Lend:\n",
    "\txor         eax, eax\n",
    "\tcmp         r8, r9\n",
    "\tje          .Lreturn\n",
    "\tmov         eax, -1\n",
    "\tjl          .Lreturn\n",
    "\tmov         eax, 1\n",
    "\tret\n"]

/-- What the text says. -/
def compareLines : List X64Line :=
  [.label "\n$runtime_compare_strings",
    .inst (.load 8 .r8 (.base .rcx 8)),
    .inst (.load 8 .r9 (.base .rdx 8)),
    .inst (.load 8 .r10 (.base .rcx 0)),
    .inst (.load 8 .r11 (.base .rdx 0)),
    .inst (.alu .xor 4 .rax .rax),
    .label ".Lloop",
    .inst (.cmp 8 .rax .r8),
    .jcc .ge ".Lend",
    .inst (.cmp 8 .rax .r9),
    .jcc .ge ".Lend",
    .movsxLoad .rcx 1 (.index .r10 .rax),
    .movsxLoad .rdx 1 (.index .r11 .rax),
    .inst (.cmp 4 .rcx .rdx),
    .jcc .ne ".Ldiffer",
    .aluImm .add 8 .rax 1,
    .jmp ".Lloop",
    .label ".Ldiffer",
    .inst (.movImm 4 .rax 1),
    .jcc .g ".Lreturn",
    .inst (.movImm 4 .rax (-1)),
    .label ".Lreturn",
    .ret,
    .label ".Lend",
    .inst (.alu .xor 4 .rax .rax),
    .inst (.cmp 8 .r8 .r9),
    .jcc .e ".Lreturn",
    .inst (.movImm 4 .rax (-1)),
    .jcc .l ".Lreturn",
    .inst (.movImm 4 .rax 1),
    .ret]

/-- The instructions are those of the text. -/
theorem text_compareLines : compareLines.map X64Line.text = x64RuntimeCompareStrings := by
  decide

/-- A string in memory: the address of its bytes and its length, and the bytes. -/
structure StringAt (mem : Memory) (addr : BitVec 64) (bytes : Text) : Prop where
  short : bytes.length < 2 ^ 63
  length_eq : readMem mem (addr + 8) 8 = BitVec.ofNat 64 bytes.length
  byte_eq : ∀ i, (inside : i < bytes.length) → mem (readMem mem addr 8 + BitVec.ofNat 64 i) = bytes.get ⟨i, inside⟩

/-- The addresses of the string. -/
def InString (mem : Memory) (addr : BitVec 64) (bytes : Text) (at' : BitVec 64) : Prop :=
  Inside addr 16 at' ∨ Inside (readMem mem addr 8) bytes.length at'

section Compare

variable {symbolAddress : List (BitVec 8) → BitVec 64} {mem : Memory} {first second : BitVec 64} {a b : Text}
  {state : X64State} {reads : List (BitVec 64)} {i : ℕ} {allowed : BitVec 64 → Prop}

/-- The registers in the loop. -/
structure Comparing (mem : Memory) (first second : BitVec 64) (a b : Text) (i : ℕ) (state : X64State) : Prop where
  mem_eq : state.mem = mem
  rax : state.regs .rax = BitVec.ofNat 64 i
  r8 : state.regs .r8 = BitVec.ofNat 64 a.length
  r9 : state.regs .r9 = BitVec.ofNat 64 b.length
  r10 : state.regs .r10 = readMem mem first 8
  r11 : state.regs .r11 = readMem mem second 8

/-- The run from a line on ends with a value, and reads nothing that isn't allowed. -/
def ComparesTo (symbolAddress : List (BitVec 8) → BitVec 64) (pc : ℕ) (state : X64State)
    (reads : List (BitVec 64)) (allowed : BitVec 64 → Prop) (value : ℤ) : Prop :=
  ∃ last after, GivesLines symbolAddress compareLines pc state reads (last, after) ∧
    last.low 4 .rax = BitVec.ofInt 32 value ∧ ∀ at' ∈ after, at' ∈ reads ∨ allowed at'

theorem toInt_ofNat_of_lt {n : ℕ} (short : n < 2 ^ 63) : (BitVec.ofNat 64 n).toInt = n := by
  have toNat_eq : (BitVec.ofNat 64 n).toNat = n := by
    rw [BitVec.toNat_ofNat, Nat.mod_eq_of_lt (by omega)]
  rw [BitVec.toInt_eq_toNat_of_lt (by omega), toNat_eq]

theorem ofNat_slt {m n : ℕ} (short : m < 2 ^ 63) (short' : n < 2 ^ 63) :
    (BitVec.ofNat 64 m).slt (BitVec.ofNat 64 n) = decide (m < n) := by
  rw [BitVec.slt_eq_decide, toInt_ofNat_of_lt short, toInt_ofNat_of_lt short']
  exact decide_eq_decide.mpr Int.ofNat_lt

theorem ofNat_sle {m n : ℕ} (short : m < 2 ^ 63) (short' : n < 2 ^ 63) :
    (BitVec.ofNat 64 m).sle (BitVec.ofNat 64 n) = decide (m ≤ n) := by
  rw [BitVec.sle_eq_not_slt, ofNat_slt short' short, ← decide_not]
  exact decide_eq_decide.mpr not_lt

theorem ofNat_beq {m n : ℕ} (short : m < 2 ^ 63) (short' : n < 2 ^ 63) :
    (BitVec.ofNat 64 m == BitVec.ofNat 64 n) = decide (m = n) := by
  rw [beq_eq_decide]
  apply decide_eq_decide.mpr
  rw [← BitVec.toNat_inj, BitVec.toNat_ofNat, BitVec.toNat_ofNat, Nat.mod_eq_of_lt (by omega),
    Nat.mod_eq_of_lt (by omega)]

theorem low_eight (state : X64State) (reg : X64Reg) : state.low 8 reg = state.regs reg := BitVec.setWidth_eq _

/-- Where the labels are. -/
theorem idxOf_labels : compareLines.idxOf (.label ".Lloop") = 6 ∧ compareLines.idxOf (.label ".Ldiffer") = 17 ∧
    compareLines.idxOf (.label ".Lreturn") = 21 ∧ compareLines.idxOf (.label ".Lend") = 23 := by decide

theorem compare_return : GivesLines symbolAddress compareLines 21 state reads (state, reads) :=
  GivesLines.label rfl (GivesLines.ret rfl)

/-- What the code from `.Lend` on leaves: the sign of the lengths. -/
def lengthSign (a b : Text) : ℤ := if a.length = b.length then 0 else if a.length < b.length then -1 else 1

/-- The code from `.Lend` on. -/
theorem compare_end (comparing : Comparing mem first second a b i state) (short : a.length < 2 ^ 63)
    (short' : b.length < 2 ^ 63) : ComparesTo symbolAddress 23 state reads allowed (lengthSign a b) := by
  have less := @holds_compareFlags 64 .slt rfl (BitVec.ofNat 64 a.length) (BitVec.ofNat 64 b.length)
  have equal := @holds_compareFlags 64 .eq rfl (BitVec.ofNat 64 a.length) (BitVec.ofNat 64 b.length)
  simp only [x64IcmpCc, irCompare, ofNat_slt short short', ofNat_beq short short'] at less equal
  let zero := state.low 4 .rax ^^^ state.low 4 .rax
  let cleared : X64State := { state.setLow 4 .rax zero with flags := none }
  have clears : (X64Inst.alu .xor 4 .rax .rax).exec symbolAddress state = some cleared := rfl
  let below : X64State :=
    { cleared with flags := some (compareFlags (BitVec.ofNat 64 a.length) (BitVec.ofNat 64 b.length)) }
  have compares : (X64Inst.cmp 8 .r8 .r9).exec symbolAddress cleared = some below := by
    have eight : cleared.low 8 .r8 = BitVec.ofNat 64 a.length := by
      rw [low_eight, ← comparing.r8]
      exact X64State.setLow_regs_of_ne state (show X64Reg.r8 ≠ .rax by decide) 4 zero
    have nine : cleared.low 8 .r9 = BitVec.ofNat 64 b.length := by
      rw [low_eight, ← comparing.r9]
      exact X64State.setLow_regs_of_ne state (show X64Reg.r9 ≠ .rax by decide) 4 zero
    rw [X64Inst.exec, eight, nine]
  have before : ∀ out, GivesLines symbolAddress compareLines 26 below reads out →
      GivesLines symbolAddress compareLines 23 state reads out := by
    intro out rest
    apply GivesLines.label rfl
    apply GivesLines.quiet rfl clears rfl
    apply GivesLines.quiet rfl compares rfl
    exact rest
  rw [lengthSign]
  by_cases same : a.length = b.length
  · rw [if_pos same]
    refine ⟨below, reads, before _ ?_, ?_, fun at' inside => .inl inside⟩
    · apply GivesLines.jumps rfl rfl (equal.trans (decide_eq_true same)) idxOf_labels.2.2.1
      exact compare_return
    · exact (X64State.low_setLow state .rax 4 (by decide) _).trans BitVec.xor_self
  · rw [if_neg same]
    let less_ := below.setLow 4 .rax (-1)
    have goes : ∀ out, GivesLines symbolAddress compareLines 28 less_ reads out →
        GivesLines symbolAddress compareLines 23 state reads out := by
      intro out rest
      apply before
      apply GivesLines.stays rfl rfl (equal.trans (decide_eq_false same))
      apply GivesLines.quiet rfl rfl rfl
      exact rest
    by_cases shorter : a.length < b.length
    · rw [if_pos shorter]
      refine ⟨less_, reads, goes _ ?_, ?_, fun at' inside => .inl inside⟩
      · apply GivesLines.jumps rfl rfl (less.trans (decide_eq_true shorter)) idxOf_labels.2.2.1
        exact compare_return
      · exact X64State.low_setLow below .rax 4 (by decide) _
    · rw [if_neg shorter]
      refine ⟨less_.setLow 4 .rax 1, reads, goes _ ?_, ?_, fun at' inside => .inl inside⟩
      · apply GivesLines.stays rfl rfl (less.trans (decide_eq_false shorter))
        apply GivesLines.quiet rfl rfl rfl
        exact GivesLines.ret rfl
      · exact X64State.low_setLow _ .rax 4 (by decide) _

theorem lengthSign_drop (le : i ≤ a.length) (le' : i ≤ b.length) (ends : i = a.length ∨ i = b.length) :
    lengthSign a b = compareBytes (a.drop i) (b.drop i) := by
  have lengths : (a.drop i).length = a.length - i ∧ (b.drop i).length = b.length - i :=
    ⟨List.length_drop, List.length_drop⟩
  rw [lengthSign]
  cases first : a.drop i with
  | nil =>
    cases second : b.drop i with
    | nil =>
      rw [first, second, List.length_nil] at lengths
      rw [if_pos (by omega)]
      rfl
    | cons y rest =>
      rw [first, second, List.length_nil, List.length_cons] at lengths
      rw [if_neg (by omega), if_pos (by omega)]
      rfl
  | cons x rest =>
    cases second : b.drop i with
    | nil =>
      rw [first, second, List.length_nil, List.length_cons] at lengths
      rw [if_neg (by omega), if_neg (by omega)]
      rfl
    | cons y more =>
      rw [first, second, List.length_cons, List.length_cons] at lengths
      omega

theorem signExtend_slt (x y : BitVec 8) : (x.signExtend 32).slt (y.signExtend 32) = x.slt y := by
  rw [BitVec.slt_eq_decide, BitVec.slt_eq_decide, BitVec.toInt_signExtend_of_le (by decide),
    BitVec.toInt_signExtend_of_le (by decide)]

theorem signExtend_inj {x y : BitVec 8} : x.signExtend 32 = y.signExtend 32 ↔ x = y := by
  rw [← BitVec.toInt_inj, BitVec.toInt_signExtend_of_le (by decide), BitVec.toInt_signExtend_of_le (by decide),
    BitVec.toInt_inj]

/-- The code from `.Ldiffer` on, with the flags of two bytes that differ. -/
theorem compare_differ {x y : BitVec 8} (differ : x ≠ y)
    (known : state.flags = some (compareFlags (x.signExtend 32) (y.signExtend 32))) :
    ComparesTo symbolAddress 17 state reads allowed (if x.slt y then -1 else 1) := by
  have more := @holds_compareFlags 32 .sgt rfl (x.signExtend 32) (y.signExtend 32)
  simp only [x64IcmpCc, irCompare, signExtend_slt] at more
  let one := state.setLow 4 .rax 1
  have kept : one.flags = some (compareFlags (x.signExtend 32) (y.signExtend 32)) := known
  have goes : ∀ out, GivesLines symbolAddress compareLines 19 one reads out →
      GivesLines symbolAddress compareLines 17 state reads out := by
    intro out rest
    apply GivesLines.label rfl
    apply GivesLines.quiet rfl rfl rfl
    exact rest
  cases above : y.slt x with
  | true =>
    have not_below : ¬x.slt y = true := by
      rw [BitVec.slt_iff_toInt_lt] at above ⊢
      omega
    rw [if_neg not_below]
    refine ⟨one, reads, goes _ ?_, X64State.low_setLow state .rax 4 (by decide) _, fun at' inside => .inl inside⟩
    apply GivesLines.jumps rfl kept (more.trans above) idxOf_labels.2.2.1
    exact compare_return
  | false =>
    have below : x.slt y = true := by
      have apart : x.toInt ≠ y.toInt := fun same => differ (BitVec.eq_of_toInt_eq same)
      rw [← Bool.not_eq_true, BitVec.slt_iff_toInt_lt] at above
      rw [BitVec.slt_iff_toInt_lt]
      omega
    rw [if_pos below]
    refine ⟨one.setLow 4 .rax (-1), reads, goes _ ?_, X64State.low_setLow one .rax 4 (by decide) _,
      fun at' inside => .inl inside⟩
    apply GivesLines.stays rfl kept (more.trans above)
    apply GivesLines.quiet rfl rfl rfl
    exact compare_return

theorem addressesFrom_one (addr : BitVec 64) : addressesFrom addr 1 = [addr] := by
  have same : addr + BitVec.ofNat 64 0 = addr := BitVec.add_zero addr
  exact congrArg (fun first => [first]) same

theorem readMem_one (mem : Memory) (addr : BitVec 64) : readMem mem addr 1 = mem addr := by
  have same : addr + BitVec.ofNat 64 0 = addr := BitVec.add_zero addr
  rw [readMem, readMem, same]
  exact BitVec.append_zero_width _ _

/-- The state with other flags. -/
def X64State.flagged (state : X64State) (flags : X64Flags) : X64State := { state with flags := some flags }

theorem Comparing.flagged (comparing : Comparing mem first second a b i state) (flags : X64Flags) :
    Comparing mem first second a b i (state.flagged flags) :=
  ⟨comparing.mem_eq, comparing.rax, comparing.r8, comparing.r9, comparing.r10, comparing.r11⟩

/-- The two tests at the top of the loop. -/
theorem compare_top (comparing : Comparing mem first second a b i state) (short : a.length < 2 ^ 63)
    (short' : b.length < 2 ^ 63) (le : i ≤ a.length) (le' : i ≤ b.length) :
    (i = a.length ∨ i = b.length →
      ComparesTo symbolAddress 6 state reads allowed (compareBytes (a.drop i) (b.drop i))) ∧
    (i < a.length → i < b.length → ∃ next, Comparing mem first second a b i next ∧
      ∀ value, ComparesTo symbolAddress 11 next reads allowed value →
        ComparesTo symbolAddress 6 state reads allowed value) := by
  have at_first := @holds_compareFlags 64 .sge rfl (BitVec.ofNat 64 i) (BitVec.ofNat 64 a.length)
  have at_second := @holds_compareFlags 64 .sge rfl (BitVec.ofNat 64 i) (BitVec.ofNat 64 b.length)
  simp only [x64IcmpCc, irCompare, ofNat_sle short (Nat.lt_of_le_of_lt le short),
    ofNat_sle short' (Nat.lt_of_le_of_lt le' short')] at at_first at_second
  let one := state.flagged (compareFlags (BitVec.ofNat 64 i) (BitVec.ofNat 64 a.length))
  have first_test : (X64Inst.cmp 8 .rax .r8).exec symbolAddress state = some one := by
    rw [X64Inst.exec, low_eight, low_eight, comparing.rax, comparing.r8]
    rfl
  have comparing_one : Comparing mem first second a b i one := comparing.flagged _
  let two := one.flagged (compareFlags (BitVec.ofNat 64 i) (BitVec.ofNat 64 b.length))
  have second_test : (X64Inst.cmp 8 .rax .r9).exec symbolAddress one = some two := by
    rw [X64Inst.exec, low_eight, low_eight, comparing_one.rax, comparing_one.r9]
    rfl
  have comparing_two : Comparing mem first second a b i two := comparing_one.flagged _
  constructor
  · intro ends
    rw [← lengthSign_drop le le' ends]
    by_cases at_end : a.length ≤ i
    · have ends : ComparesTo symbolAddress 23 one reads allowed (lengthSign a b) :=
        compare_end comparing_one short short'
      obtain ⟨last, after, gives, value, reads_le⟩ := ends
      refine ⟨last, after, ?_, value, reads_le⟩
      apply GivesLines.label rfl
      apply GivesLines.quiet rfl first_test rfl
      exact GivesLines.jumps rfl rfl (at_first.trans (decide_eq_true at_end)) idxOf_labels.2.2.2 gives
    · have ends : ComparesTo symbolAddress 23 two reads allowed (lengthSign a b) :=
        compare_end comparing_two short short'
      obtain ⟨last, after, gives, value, reads_le⟩ := ends
      refine ⟨last, after, ?_, value, reads_le⟩
      apply GivesLines.label rfl
      apply GivesLines.quiet rfl first_test rfl
      apply GivesLines.stays rfl rfl (at_first.trans (decide_eq_false at_end))
      apply GivesLines.quiet rfl second_test rfl
      exact GivesLines.jumps rfl rfl (at_second.trans (decide_eq_true (by omega))) idxOf_labels.2.2.2 gives
  · intro inside inside'
    refine ⟨two, comparing_two, ?_⟩
    rintro value ⟨last, after, gives, value_eq, reads_le⟩
    refine ⟨last, after, ?_, value_eq, reads_le⟩
    apply GivesLines.label rfl
    apply GivesLines.quiet rfl first_test rfl
    apply GivesLines.stays rfl rfl (at_first.trans (decide_eq_false (by omega)))
    apply GivesLines.quiet rfl second_test rfl
    exact GivesLines.stays rfl rfl (at_second.trans (decide_eq_false (by omega))) gives

/-- The registers of the loop are not the ones that the bytes are loaded into. -/
theorem Comparing.setLow (comparing : Comparing mem first second a b i state) (reg : X64Reg)
    (loaded : reg ∉ [X64Reg.rax, .r8, .r9, .r10, .r11]) (value : BitVec (8 * 4)) :
    Comparing mem first second a b i (state.setLow 4 reg value) := by
  have stays : ∀ other ∈ [X64Reg.rax, .r8, .r9, .r10, .r11],
      (state.setLow 4 reg value).regs other = state.regs other := by
    intro other member
    have apart : other ≠ reg := by
      rintro rfl
      exact loaded member
    exact X64State.setLow_regs_of_ne state apart 4 value
  refine ⟨comparing.mem_eq, ?_, ?_, ?_, ?_, ?_⟩
  · exact (stays .rax (by decide)).trans comparing.rax
  · exact (stays .r8 (by decide)).trans comparing.r8
  · exact (stays .r9 (by decide)).trans comparing.r9
  · exact (stays .r10 (by decide)).trans comparing.r10
  · exact (stays .r11 (by decide)).trans comparing.r11

theorem Comparing.next (comparing : Comparing mem first second a b i state) :
    Comparing mem first second a b (i + 1)
      { state.setLow 8 .rax (X64Alu.eval .add (state.low 8 .rax) (BitVec.setWidth _ (1 : BitVec 64))) with
        flags := none } := by
  let sum := X64Alu.eval .add (state.low 8 .rax) (BitVec.setWidth 64 (1 : BitVec 64))
  have stays : ∀ other ∈ [X64Reg.r8, .r9, .r10, .r11], (state.setLow 8 .rax sum).regs other = state.regs other := by
    intro other member
    have apart : other ≠ .rax := by
      rintro rfl
      revert member
      decide
    exact X64State.setLow_regs_of_ne state apart 8 sum
  have rax : (state.setLow 8 .rax sum).regs .rax = BitVec.ofNat 64 (i + 1) := by
    have sum_eq : sum = BitVec.ofNat 64 (i + 1) := by
      simp only [sum]
      rw [low_eight, comparing.rax, X64Alu.eval, BitVec.ofNat_add]
      rfl
    rw [X64State.setLow_regs_self _ _ (by decide), sum_eq]
    exact BitVec.setWidth_eq _
  refine ⟨comparing.mem_eq, rax, ?_, ?_, ?_, ?_⟩
  · exact (stays .r8 (by decide)).trans comparing.r8
  · exact (stays .r9 (by decide)).trans comparing.r9
  · exact (stays .r10 (by decide)).trans comparing.r10
  · exact (stays .r11 (by decide)).trans comparing.r11

/-- The loop reads the next byte of both strings, and goes on behind them if they are the same. -/
theorem compare_bytes (comparing : Comparing mem first second a b i state) (x y : BitVec 8)
    (x_eq : mem (readMem mem first 8 + BitVec.ofNat 64 i) = x)
    (y_eq : mem (readMem mem second 8 + BitVec.ofNat 64 i) = y)
    (allows : allowed (readMem mem first 8 + BitVec.ofNat 64 i))
    (allows' : allowed (readMem mem second 8 + BitVec.ofNat 64 i)) :
    (x ≠ y → ComparesTo symbolAddress 11 state reads allowed (if x.slt y then -1 else 1)) ∧
    (x = y → ∃ next more, Comparing mem first second a b (i + 1) next ∧
      ∀ value, ComparesTo symbolAddress 6 next more allowed value →
        ComparesTo symbolAddress 11 state reads allowed value) := by
  have unequal := @holds_compareFlags 32 .ne rfl (x.signExtend 32) (y.signExtend 32)
  simp only [x64IcmpCc, irCompare] at unequal
  let one := state.setLow 4 .rcx (x.signExtend 32)
  let two := one.setLow 4 .rdx (y.signExtend 32)
  let three := two.flagged (compareFlags (x.signExtend 32) (y.signExtend 32))
  let more := reads ++ addressesFrom (readMem mem first 8 + BitVec.ofNat 64 i) 1 ++
    addressesFrom (readMem mem second 8 + BitVec.ofNat 64 i) 1
  have comparing_one : Comparing mem first second a b i one := comparing.setLow .rcx (by decide) _
  have comparing_two : Comparing mem first second a b i two := comparing_one.setLow .rdx (by decide) _
  have low_rcx : two.low 4 .rcx = x.signExtend 32 := by
    rw [X64State.low, X64State.setLow_regs_of_ne one (show X64Reg.rcx ≠ .rdx by decide)]
    exact X64State.low_setLow state .rcx 4 (by decide) _
  have low_rdx : two.low 4 .rdx = y.signExtend 32 := X64State.low_setLow one .rdx 4 (by decide) _
  have goes : ∀ out, GivesLines symbolAddress compareLines 14 three more out →
      GivesLines symbolAddress compareLines 11 state reads out := by
    intro out rest
    apply GivesLines.movsxLoad rfl rfl
    rw [comparing.mem_eq, comparing.r10, comparing.rax, readMem_one, x_eq]
    apply GivesLines.movsxLoad rfl rfl
    rw [show one.mem = mem from comparing_one.mem_eq, show one.regs .r11 = _ from comparing_one.r11,
      show one.regs .rax = _ from comparing_one.rax, readMem_one, y_eq]
    have compares : (X64Inst.cmp 4 .rcx .rdx).exec symbolAddress two = some three := by
      rw [X64Inst.exec, low_rcx, low_rdx]
      rfl
    exact GivesLines.quiet rfl compares rfl rest
  have reads_more : ∀ at' ∈ more, at' ∈ reads ∨ allowed at' := by
    intro at' inside
    simp only [more, addressesFrom_one, List.mem_append, List.mem_singleton] at inside
    obtain (inside | rfl) | rfl := inside
    · exact .inl inside
    · exact .inr allows
    · exact .inr allows'
  constructor
  · intro differ
    obtain ⟨last, after, gives, value, reads_le⟩ : ComparesTo symbolAddress 17 three more allowed _ :=
      compare_differ differ rfl
    refine ⟨last, after, goes _ ?_, value, fun at' inside => ?_⟩
    · apply GivesLines.jumps rfl rfl _ idxOf_labels.2.1 gives
      rw [unequal]
      simpa [signExtend_inj] using differ
    · exact (reads_le at' inside).elim (reads_more at') .inr
  · intro same
    refine ⟨_, more, comparing_two.next, ?_⟩
    rintro value ⟨last, after, gives, value_eq, reads_le⟩
    refine ⟨last, after, goes _ ?_, value_eq, fun at' inside => ?_⟩
    · apply GivesLines.stays rfl rfl
      · rw [unequal, same]
        simp
      · apply GivesLines.aluImm rfl
        exact GivesLines.jmp rfl idxOf_labels.1 gives
    · exact (reads_le at' inside).elim (reads_more at') .inr

/-- What a comparison may read: the two strings. -/
def InEither (mem : Memory) (first second : BitVec 64) (a b : Text) (at' : BitVec 64) : Prop :=
  InString mem first a at' ∨ InString mem second b at'

theorem inString_byte (inside : i < a.length) :
    InString mem first a (readMem mem first 8 + BitVec.ofNat 64 i) :=
  .inr (inside_offset inside)

/-- The two words of a string. -/
theorem inString_word {offset : ℕ} (fits : offset + 8 ≤ 16) {at' : BitVec 64}
    (inside : at' ∈ addressesFrom (first + BitVec.ofNat 64 offset) 8) : InString mem first a at' := by
  obtain ⟨k, within, rfl⟩ := List.mem_map.mp inside
  rw [BitVec.add_assoc, ← BitVec.ofNat_add]
  exact .inl (inside_offset (by have := List.mem_range.mp within; omega))

theorem compare_loop (at_first : StringAt mem first a) (at_second : StringAt mem second b)
    (comparing : Comparing mem first second a b i state) (le : i ≤ a.length) (le' : i ≤ b.length) :
    ComparesTo symbolAddress 6 state reads (InEither mem first second a b)
      (compareBytes (a.drop i) (b.drop i)) := by
  induction left : a.length - i generalizing i state reads with
  | zero => exact (compare_top comparing at_first.short at_second.short le le').1 (.inl (by omega))
  | succ left ih =>
    have top := @compare_top symbolAddress mem first second a b state reads i (InEither mem first second a b)
      comparing at_first.short at_second.short le le'
    by_cases ends : i = b.length
    · exact top.1 (.inr ends)
    have inside : i < a.length := by omega
    have inside' : i < b.length := by omega
    obtain ⟨next, comparing_next, goes⟩ := top.2 inside inside'
    apply goes
    have bytes := @compare_bytes symbolAddress mem first second a b next reads i (InEither mem first second a b)
      comparing_next _ _ (at_first.byte_eq i inside) (at_second.byte_eq i inside')
      (.inl (inString_byte inside)) (.inr (inString_byte inside'))
    rw [List.drop_eq_getElem_cons inside, List.drop_eq_getElem_cons inside', compareBytes]
    by_cases same : a[i] = b[i]
    · obtain ⟨after, more, comparing_after, goes⟩ := bytes.2 same
      rw [if_pos same]
      exact goes _ (ih comparing_after (by omega) (by omega) (by omega))
    · rw [if_neg same]
      exact bytes.1 same

/-- The runtime function compares the strings that its arguments lead to. -/
theorem compare_run (at_first : StringAt mem first a) (at_second : StringAt mem second b)
    (mem_eq : state.mem = mem) (rcx : state.regs .rcx = first) (rdx : state.regs .rdx = second) :
    ComparesTo symbolAddress 0 state [] (InEither mem first second a b) (compareBytes a b) := by
  let one := state.setLow 8 .r8 (readMem mem (first + BitVec.ofNat 64 8) 8)
  let two := one.setLow 8 .r9 (readMem mem (second + BitVec.ofNat 64 8) 8)
  let three := two.setLow 8 .r10 (readMem mem (first + BitVec.ofNat 64 0) 8)
  let four := three.setLow 8 .r11 (readMem mem (second + BitVec.ofNat 64 0) 8)
  let five : X64State := { four.setLow 4 .rax (four.low 4 .rax ^^^ four.low 4 .rax) with flags := none }
  let reads := [] ++ addressesFrom (first + BitVec.ofNat 64 8) 8 ++ addressesFrom (second + BitVec.ofNat 64 8) 8 ++
    addressesFrom (first + BitVec.ofNat 64 0) 8 ++ addressesFrom (second + BitVec.ofNat 64 0) 8
  have rdx_one : one.regs .rdx = second :=
    (X64State.setLow_regs_of_ne state (show X64Reg.rdx ≠ .r8 by decide) 8 _).trans rdx
  have rcx_two : two.regs .rcx = first := by
    simpa [two, one, X64State.setLow_regs_of_ne] using rcx
  have rdx_three : three.regs .rdx = second := by
    simpa [three, two, X64State.setLow_regs_of_ne] using rdx_one
  have goes : ∀ out, GivesLines symbolAddress compareLines 6 five reads out →
      GivesLines symbolAddress compareLines 0 state [] out := by
    intro out rest
    apply GivesLines.label rfl
    apply GivesLines.load rfl mem_eq rcx
    apply GivesLines.load rfl (show one.mem = mem from mem_eq) rdx_one
    apply GivesLines.load rfl (show two.mem = mem from mem_eq) rcx_two
    apply GivesLines.load rfl (show three.mem = mem from mem_eq) rdx_three
    exact GivesLines.quiet rfl rfl rfl rest
  have comparing : Comparing mem first second a b 0 five := by
    refine ⟨mem_eq, ?_, ?_, ?_, ?_, ?_⟩
    all_goals
      simp [five, four, three, two, one, X64State.setLow_regs_of_ne, X64State.setLow_regs_self]
    · exact at_first.length_eq
    · exact at_second.length_eq
  have reads_le : ∀ at' ∈ reads, InEither mem first second a b at' := by
    intro at' inside
    simp only [reads, List.nil_append, List.mem_append] at inside
    obtain ((inside | inside) | inside) | inside := inside
    · exact .inl (inString_word (by decide) inside)
    · exact .inr (inString_word (by decide) inside)
    · exact .inl (inString_word (by decide) inside)
    · exact .inr (inString_word (by decide) inside)
  obtain ⟨last, after, gives, value, after_le⟩ :=
    @compare_loop symbolAddress mem first second a b five reads 0 at_first at_second comparing (Nat.zero_le _)
      (Nat.zero_le _)
  exact ⟨last, after, goes _ gives, value, fun at' inside => .inr ((after_le at' inside).elim (reads_le at') id)⟩

end Compare

end Saad
