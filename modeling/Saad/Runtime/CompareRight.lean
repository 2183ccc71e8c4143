import Saad.Runtime.CompareX64

/-! # The comparison of strings for LLVM

The function is made of basic blocks whose values are built one after the other, or one inside of another.
It changes no memory. A `phi` takes the value that belongs to the block before.
-/

namespace Saad

open General

/-- A value of LLVM. -/
inductive LlvmWord
  | i1 (value : Bool)
  | i8 (value : BitVec 8)
  | i32 (value : BitVec 32)
  | i64 (value : BitVec 64)
  | ptr (address : BitVec 64)
deriving DecidableEq, Repr

/-- What the builder makes. An element that an address is moved by is a byte. -/
inductive LlvmExpr (N : Type)
  | param (i : ℕ)
  | const (word : LlvmWord)
  | named (name : N)
  | gep (address index : LlvmExpr N)
  | load (type : IrType) (address : LlvmExpr N)
  | icmp (cmp : IrCmp) (x y : LlvmExpr N)
  | and (x y : LlvmExpr N)
  | add (x y : LlvmExpr N)
  | select (cond x y : LlvmExpr N)

inductive LlvmEnd (N L : Type)
  | br (target : L)
  | condBr (cond : LlvmExpr N) (target elseTarget : L)
  | ret (value : LlvmExpr N)

/-- A basic block: its phis with a value for each block before, its other values, and how it ends. -/
structure LlvmPart (N L : Type) where
  phis : List (N × List (LlvmExpr N × L)) := []
  code : List (N × LlvmExpr N)
  term : LlvmEnd N L

section Run

variable {N L : Type} [DecidableEq N] [DecidableEq L] (mem : Memory) (params : List LlvmWord)

def loadWord (type : IrType) (address : BitVec 64) : Option LlvmWord :=
  match type with
  | .i8 => some (.i8 (mem address))
  | .i32 => some (.i32 (readMem mem address 4))
  | .i64 => some (.i64 (readMem mem address 8))
  | .ptr => some (.ptr (readMem mem address 8))
  | _ => none

def compareWords (cmp : IrCmp) : LlvmWord → LlvmWord → Option LlvmWord
  | .i8 x, .i8 y => some (.i1 (irCompare cmp x y))
  | .i32 x, .i32 y => some (.i1 (irCompare cmp x y))
  | .i64 x, .i64 y => some (.i1 (irCompare cmp x y))
  | _, _ => none

def LlvmExpr.eval (values : N → Option LlvmWord) : LlvmExpr N → Option LlvmWord
  | .param i => params[i]?
  | .const word => some word
  | .named name => values name
  | .gep address index => do
    match ← address.eval values, ← index.eval values with
    | .ptr address, .i64 index => some (.ptr (address + index))
    | _, _ => none
  | .load type address => do
    match ← address.eval values with
    | .ptr address => loadWord mem type address
    | _ => none
  | .icmp cmp x y => do compareWords cmp (← x.eval values) (← y.eval values)
  | .and x y => do
    match ← x.eval values, ← y.eval values with
    | .i1 x, .i1 y => some (.i1 (x && y))
    | _, _ => none
  | .add x y => do
    match ← x.eval values, ← y.eval values with
    | .i64 x, .i64 y => some (.i64 (x + y))
    | _, _ => none
  | .select cond x y => do
    match ← cond.eval values, ← x.eval values, ← y.eval values with
    | .i1 cond, x, y => some (if cond then x else y)
    | _, _, _ => none

/-- The values behind a list of definitions. -/
def defineAll (values : N → Option LlvmWord) : List (N × LlvmExpr N) → Option (N → Option LlvmWord)
  | [] => some values
  | (name, expr) :: rest => do
    defineAll (Function.update values name (some (← expr.eval mem params values))) rest

/-- The phis take what belongs to the block before. -/
def phiExprs (from_ : Option L) (phis : List (N × List (LlvmExpr N × L))) : List (N × LlvmExpr N) :=
  phis.filterMap fun (name, incoming) =>
    (incoming.find? fun (_, block) => some block = from_).map fun (expr, _) => (name, expr)

/-- Runs from a block on to what the function returns. -/
def runParts (parts : L → LlvmPart N L) : ℕ → Option L → L → (N → Option LlvmWord) → Option LlvmWord
  | 0, _, _, _ => none
  | fuel + 1, from_, block, values => do
    let values ← defineAll mem params values (phiExprs from_ (parts block).phis ++ (parts block).code)
    match (parts block).term with
    | .br target => runParts parts fuel (some block) target values
    | .condBr cond target elseTarget =>
      match ← cond.eval mem params values with
      | .i1 cond => runParts parts fuel (some block) (if cond then target else elseTarget) values
      | _ => none
    | .ret value => value.eval mem params values

end Run

/-- The values that have names. -/
inductive CompareValue
  | alen | blen | adata | bdata | i | both | ca | cb | next | longer
deriving DecidableEq, Repr

inductive CompareBlock
  | entry | loop | body | same | differ | end_
deriving DecidableEq, Repr

open LlvmExpr in
def llvmRuntimeCompareStrings : CompareBlock → LlvmPart CompareValue CompareBlock
  | .entry => {
      code := [
        (.alen, load .i64 (gep (param 0) (const (.i64 8)))),
        (.blen, load .i64 (gep (param 1) (const (.i64 8)))),
        (.adata, load .ptr (param 0)),
        (.bdata, load .ptr (param 1))]
      term := .br .loop }
  | .loop => {
      phis := [(.i, [(const (.i64 0), .entry), (named .next, .same)])]
      code := [(.both, and (icmp .slt (named .i) (named .alen)) (icmp .slt (named .i) (named .blen)))]
      term := .condBr (named .both) .body .end_ }
  | .body => {
      code := [
        (.ca, load .i8 (gep (named .adata) (named .i))),
        (.cb, load .i8 (gep (named .bdata) (named .i)))]
      term := .condBr (icmp .eq (named .ca) (named .cb)) .same .differ }
  | .same => {
      code := [(.next, add (named .i) (const (.i64 1)))]
      term := .br .loop }
  | .differ => {
      code := []
      term := .ret (select (icmp .slt (named .ca) (named .cb)) (const (.i32 (-1))) (const (.i32 1))) }
  | .end_ => {
      code := [(.longer, select (icmp .sgt (named .alen) (named .blen)) (const (.i32 1)) (const (.i32 0)))]
      term := .ret (select (icmp .slt (named .alen) (named .blen)) (const (.i32 (-1))) (named .longer)) }

section Compare

variable {mem : Memory} {first second : BitVec 64} {a b : Text} {i : ℕ} {from_ : Option CompareBlock}
  {values : CompareValue → Option LlvmWord}

/-- The values in the loop. -/
structure Built (mem : Memory) (first second : BitVec 64) (a b : Text)
    (values : CompareValue → Option LlvmWord) : Prop where
  alen : values .alen = some (.i64 (BitVec.ofNat 64 a.length))
  blen : values .blen = some (.i64 (BitVec.ofNat 64 b.length))
  adata : values .adata = some (.ptr (readMem mem first 8))
  bdata : values .bdata = some (.ptr (readMem mem second 8))

/-- The run from a block on returns the value. -/
def Returns (mem : Memory) (first second : BitVec 64) (from_ : Option CompareBlock) (block : CompareBlock)
    (values : CompareValue → Option LlvmWord) (value : ℤ) : Prop :=
  Gives (fun fuel => runParts mem [.ptr first, .ptr second] llvmRuntimeCompareStrings fuel from_ block values)
    (.i32 (BitVec.ofInt 32 value))

theorem returns_end (built : Built mem first second a b values) (short : a.length < 2 ^ 63)
    (short' : b.length < 2 ^ 63) : Returns mem first second from_ .end_ values (lengthSign a b) := by
  apply Gives.step (Gives.of_eq fun _ => rfl)
  intro fuel
  simp only [runParts, llvmRuntimeCompareStrings, phiExprs, defineAll, LlvmExpr.eval, built.alen, built.blen,
    compareWords, irCompare, ofNat_slt short short', ofNat_slt short' short, lengthSign, List.filterMap_nil,
    List.nil_append, Function.update_self, bind, Option.bind_some, decide_eq_true_eq, ne_eq, reduceCtorEq,
    not_false_eq_true, Function.update_of_ne]
  by_cases same : a.length = b.length
  · rw [if_neg (by omega), if_neg (by omega), if_pos same]
    rfl
  · by_cases shorter : a.length < b.length
    · rw [if_pos shorter, if_neg same, if_pos shorter]
      rfl
    · rw [if_neg shorter, if_pos (by omega), if_neg same, if_neg shorter]
      rfl

/-- The first test is the one of the x64 code for both strings at once. -/
theorem returns_loop (built : Built mem first second a b values) (short : a.length < 2 ^ 63)
    (short' : b.length < 2 ^ 63) (le : i ≤ a.length) (le' : i ≤ b.length)
    (index : from_ = some .entry ∧ i = 0 ∨
      from_ = some .same ∧ values .next = some (.i64 (BitVec.ofNat 64 i))) {value : ℤ}
    (goes : ∀ next, Built mem first second a b next → next .i = some (.i64 (BitVec.ofNat 64 i)) →
      Returns mem first second (some .loop) (if i < a.length ∧ i < b.length then .body else .end_) next value) :
    Returns mem first second from_ .loop values value := by
  let phi := Function.update values .i (some (.i64 (BitVec.ofNat 64 i)))
  let tested := Function.update phi .both (some (.i1 (decide (i < a.length) && decide (i < b.length))))
  have built_tested : Built mem first second a b tested := by
    constructor <;> simp [tested, phi, built.alen, built.blen, built.adata, built.bdata]
  apply Gives.step (goes tested built_tested (by simp [tested, phi]))
  intro fuel
  have defines : defineAll mem [.ptr first, .ptr second] values
      (phiExprs from_ (llvmRuntimeCompareStrings .loop).phis ++ (llvmRuntimeCompareStrings .loop).code) =
        some tested := by
    have less := ofNat_slt (Nat.lt_of_le_of_lt le short) short
    have less' := ofNat_slt (Nat.lt_of_le_of_lt le' short') short'
    obtain ⟨rfl, rfl⟩ | ⟨rfl, next⟩ := index
    · simp [llvmRuntimeCompareStrings, phiExprs, defineAll, LlvmExpr.eval, built.alen, built.blen, compareWords,
        irCompare, tested, phi]
      rw [less, less']
    · simp [llvmRuntimeCompareStrings, phiExprs, defineAll, LlvmExpr.eval, built.alen, built.blen, compareWords,
        irCompare, less, less', next, tested, phi]
  rw [runParts, defines]
  simp [llvmRuntimeCompareStrings, LlvmExpr.eval, tested]

/-- The bytes at the index, which either end the function or lead back to the loop. -/
theorem returns_body (built : Built mem first second a b values)
    (index : values .i = some (.i64 (BitVec.ofNat 64 i))) (x y : BitVec 8)
    (x_eq : mem (readMem mem first 8 + BitVec.ofNat 64 i) = x)
    (y_eq : mem (readMem mem second 8 + BitVec.ofNat 64 i) = y) :
    (x ≠ y → Returns mem first second from_ .body values (if x.slt y then -1 else 1)) ∧
    (x = y → ∀ value, (∀ next, Built mem first second a b next →
        next .next = some (.i64 (BitVec.ofNat 64 (i + 1))) →
          Returns mem first second (some .same) .loop next value) →
      Returns mem first second from_ .body values value) := by
  let loaded := Function.update (Function.update values .ca (some (.i8 x))) .cb (some (.i8 y))
  have defines : defineAll mem [.ptr first, .ptr second] values
      (phiExprs from_ (llvmRuntimeCompareStrings .body).phis ++ (llvmRuntimeCompareStrings .body).code) =
        some loaded := by
    simp [llvmRuntimeCompareStrings, phiExprs, defineAll, LlvmExpr.eval, built.adata, built.bdata, index, loadWord,
      x_eq, y_eq, loaded]
  constructor
  · intro differ
    have returns : Returns mem first second (some .body) .differ loaded (if x.slt y then -1 else 1) := by
      apply Gives.step (Gives.of_eq fun _ => rfl)
      intro fuel
      simp [runParts, llvmRuntimeCompareStrings, phiExprs, defineAll, LlvmExpr.eval, compareWords, irCompare, loaded]
      split <;> rfl
    apply Gives.step returns
    intro fuel
    rw [runParts, defines]
    simp [llvmRuntimeCompareStrings, LlvmExpr.eval, compareWords, irCompare, loaded, differ]
  · intro same value goes
    let next := Function.update loaded .next (some (.i64 (BitVec.ofNat 64 (i + 1))))
    have built_next : Built mem first second a b next := by
      constructor <;> simp [next, loaded, built.alen, built.blen, built.adata, built.bdata]
    have returns : Returns mem first second (some .body) .same loaded value := by
      apply Gives.step (goes next built_next (by simp [next]))
      intro fuel
      simp [runParts, llvmRuntimeCompareStrings, phiExprs, defineAll, LlvmExpr.eval, index, loaded, next,
        BitVec.ofNat_add]
    apply Gives.step returns
    intro fuel
    rw [runParts, defines]
    simp [llvmRuntimeCompareStrings, LlvmExpr.eval, compareWords, irCompare, loaded, same]

theorem returns_from_loop (at_first : StringAt mem first a) (at_second : StringAt mem second b)
    (built : Built mem first second a b values) (le : i ≤ a.length) (le' : i ≤ b.length)
    (index : from_ = some .entry ∧ i = 0 ∨
      from_ = some .same ∧ values .next = some (.i64 (BitVec.ofNat 64 i))) :
    Returns mem first second from_ .loop values (compareBytes (a.drop i) (b.drop i)) := by
  induction left : a.length - i generalizing i from_ values with
  | zero =>
    apply returns_loop built at_first.short at_second.short le le' index
    intro next built_next _
    rw [if_neg (by omega), ← lengthSign_drop le le' (.inl (by omega))]
    exact returns_end built_next at_first.short at_second.short
  | succ left ih =>
    apply returns_loop built at_first.short at_second.short le le' index
    intro next built_next index_next
    by_cases ends : i = b.length
    · rw [if_neg (by omega), ← lengthSign_drop le le' (.inr ends)]
      exact returns_end built_next at_first.short at_second.short
    have inside : i < a.length := by omega
    have inside' : i < b.length := by omega
    have body := @returns_body mem first second a b i (some .loop) next built_next index_next _ _
      (at_first.byte_eq i inside) (at_second.byte_eq i inside')
    rw [if_pos ⟨inside, inside'⟩, List.drop_eq_getElem_cons inside, List.drop_eq_getElem_cons inside', compareBytes]
    by_cases same : a[i] = b[i]
    · rw [if_pos same]
      apply body.2 same
      intro after built_after index_after
      exact ih built_after (by omega) (by omega) (.inr ⟨rfl, index_after⟩) (by omega)
    · rw [if_neg same]
      exact body.1 same

/-- The function that LLVM gets compares the strings that its arguments lead to. -/
theorem returns_compare (at_first : StringAt mem first a) (at_second : StringAt mem second b) :
    Returns mem first second none .entry (fun _ => none) (compareBytes a b) := by
  let values : CompareValue → Option LlvmWord := Function.update (Function.update (Function.update (Function.update
    (fun _ => none) .alen (some (.i64 (BitVec.ofNat 64 a.length)))) .blen (some (.i64 (BitVec.ofNat 64 b.length))))
    .adata (some (.ptr (readMem mem first 8)))) .bdata (some (.ptr (readMem mem second 8)))
  have built : Built mem first second a b values := by
    constructor <;> simp [values]
  apply Gives.step (returns_from_loop at_first at_second built (Nat.zero_le _) (Nat.zero_le _) (.inl ⟨rfl, rfl⟩))
  intro fuel
  have alen := at_first.length_eq
  have blen := at_second.length_eq
  simp only [show (8 : BitVec 64) = 8#64 from rfl] at alen blen
  simp [runParts, llvmRuntimeCompareStrings, phiExprs, defineAll, LlvmExpr.eval, loadWord, alen, blen, values]

end Compare

end Saad

/-! # Both backends order strings the same way

The results of both functions have the sign of `compareBytes`, which orders the strings.
-/

namespace Saad

open General

/-- Called with two strings, the x64 text returns the number and reads nothing else. -/
def X64Compares (mem : Memory) (first second : BitVec 64) (a b : Text) (result : BitVec 32) : Prop :=
  ∀ (symbolAddress : List (BitVec 8) → BitVec 64) (state : X64State), state.mem = mem →
    state.regs .rcx = first → state.regs .rdx = second →
      ∃ last reads, GivesLines symbolAddress compareLines 0 state [] (last, reads) ∧
        last.low 4 .rax = result ∧ ∀ at' ∈ reads, InEither mem first second a b at'

/-- Called with two strings, the function for LLVM returns the number. -/
def LlvmCompares (mem : Memory) (first second : BitVec 64) (result : BitVec 32) : Prop :=
  Gives (fun fuel => runParts mem [.ptr first, .ptr second] llvmRuntimeCompareStrings fuel none .entry
    fun _ => none) (.i32 result)

/-- What the results for three strings must be like. -/
structure OrdersStrings (a b c : Text) (ab ba bc ac : ℤ) : Prop where
  zero_iff : ab = 0 ↔ a = b
  antisymm : ab.sign = -ba.sign
  trans : ab < 0 → bc < 0 → ac < 0
  longer : a <+: b → a ≠ b → ab < 0

section Right

variable {mem : Memory} {first second third : BitVec 64} {a b c : Text}

theorem x64Compares_compareBytes (at_first : StringAt mem first a) (at_second : StringAt mem second b) :
    X64Compares mem first second a b (BitVec.ofInt 32 (compareBytes a b)) := by
  intro symbolAddress state mem_eq rcx rdx
  obtain ⟨last, reads, gives, value, reads_le⟩ : ComparesTo symbolAddress 0 state [] _ _ :=
    compare_run at_first at_second mem_eq rcx rdx
  exact ⟨last, reads, gives, value, fun at' inside => (reads_le at' inside).resolve_left List.not_mem_nil⟩

theorem toInt_compareBytes (a b : Text) : (BitVec.ofInt 32 (compareBytes a b)).toInt = compareBytes a b := by
  obtain ⟨sign, -⟩ | ⟨sign, -⟩ | ⟨sign, -⟩ := compareBytes_lex a b <;> rw [sign] <;> rfl

theorem ordersStrings_compareBytes (a b c : Text) :
    OrdersStrings a b c (compareBytes a b) (compareBytes b a) (compareBytes b c) (compareBytes a c) where
  zero_iff := compareBytes_eq_zero_iff
  antisymm := by rw [compareBytes_swap, Int.sign_neg]
  trans := compareBytes_trans
  longer := by
    rintro ⟨more, rfl⟩ differ
    apply compareBytes_prefix
    rintro rfl
    exact differ (List.append_nil a).symm

/-- For any three strings in memory the x64 text orders them and only reads their bytes, and the function
for LLVM gives the same signs. -/
theorem runtimeCompareStrings_right (at_first : StringAt mem first a) (at_second : StringAt mem second b)
    (at_third : StringAt mem third c) :
    compareLines.map X64Line.text = x64RuntimeCompareStrings ∧
      ∃ ab ba bc ac llvm : BitVec 32,
        X64Compares mem first second a b ab ∧ X64Compares mem second first b a ba ∧
        X64Compares mem second third b c bc ∧ X64Compares mem first third a c ac ∧
        LlvmCompares mem first second llvm ∧ llvm.toInt.sign = ab.toInt.sign ∧
        OrdersStrings a b c ab.toInt ba.toInt bc.toInt ac.toInt := by
  refine ⟨text_compareLines, _, _, _, _, _, x64Compares_compareBytes at_first at_second,
    x64Compares_compareBytes at_second at_first, x64Compares_compareBytes at_second at_third,
    x64Compares_compareBytes at_first at_third, returns_compare at_first at_second, rfl, ?_⟩
  simp only [toInt_compareBytes]
  exact ordersStrings_compareBytes a b c

/-- The strings `a`, `ab` and `b`, of which the first two share their bytes. -/
def sampleMemory : Memory := fun at' =>
  ([64, 0, 0, 0, 0, 0, 0, 0, 1, 0, 0, 0, 0, 0, 0, 0,
    64, 0, 0, 0, 0, 0, 0, 0, 2, 0, 0, 0, 0, 0, 0, 0,
    65, 0, 0, 0, 0, 0, 0, 0, 1, 0, 0, 0, 0, 0, 0, 0] ++ List.replicate 16 0 ++ asciiBytes "ab").getD at'.toNat 0

theorem stringAt_samples : StringAt sampleMemory 0 (asciiBytes "a") ∧ StringAt sampleMemory 16 (asciiBytes "ab") ∧
    StringAt sampleMemory 32 (asciiBytes "b") :=
  ⟨⟨by decide, by decide, by decide⟩, ⟨by decide, by decide, by decide⟩, ⟨by decide, by decide, by decide⟩⟩

theorem runtimeCompareStrings_samples : compareLines.map X64Line.text = x64RuntimeCompareStrings ∧
    ∃ ab ba bc ac llvm : BitVec 32,
      X64Compares sampleMemory 0 16 (asciiBytes "a") (asciiBytes "ab") ab ∧
      X64Compares sampleMemory 16 0 (asciiBytes "ab") (asciiBytes "a") ba ∧
      X64Compares sampleMemory 16 32 (asciiBytes "ab") (asciiBytes "b") bc ∧
      X64Compares sampleMemory 0 32 (asciiBytes "a") (asciiBytes "b") ac ∧
      LlvmCompares sampleMemory 0 16 llvm ∧ llvm.toInt.sign = ab.toInt.sign ∧
      OrdersStrings (asciiBytes "a") (asciiBytes "ab") (asciiBytes "b") ab.toInt ba.toInt bc.toInt ac.toInt :=
  runtimeCompareStrings_right stringAt_samples.1 stringAt_samples.2.1 stringAt_samples.2.2

end Right

end Saad
