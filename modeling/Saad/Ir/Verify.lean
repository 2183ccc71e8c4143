import Mathlib.Algebra.Order.BigOperators.Group.List
import Mathlib.Algebra.Order.Ring.Nat
import Saad.Ir.Liveness

/-! # The verifier

`irVerifyFunction` gives the messages that `ir_verify_function` prints; a function is accepted when
there are none. `Verified` is what the later passes use of an accepted function: block pointers lead
to placed blocks, every vreg has at most one definition, every vreg that is read has one, and on
every path from the entry it comes before the read.
-/

namespace Saad

open General

section Messages

variable (globals : List IrGlobal) (func : IrFunction)

def irVerifyOperand (vreg : Option Vreg) (expected : IrType) (what : String) : List String :=
  match vreg with
  | none => [s!"missing {what} operand"]
  | some v =>
    if func.vregCount ≤ v then [s!"{what} operand v{v} does not exist"]
    else if expected ≠ .void ∧ irVregType func vreg ≠ expected then
      let type := irTypeName (irVregType func vreg)
      let wanted := irTypeName expected
      [s!"{what} operand v{v} has type {type}, expected {wanted}"]
    else []

/-- The message when the check fails. -/
def irVerifyCheck (ok : Prop) [Decidable ok] (message : String) : List String :=
  if ok then [] else [message]

def irVerifyAddr (addr : IrAddr) : List String :=
  let base := addr.base
  match addr.kind with
  | .vreg => irVerifyOperand func (some addr.base) .ptr "address"
  | .slot => irVerifyCheck (addr.base < func.slots.length) s!"slot s{base} does not exist"
  | .global => irVerifyCheck (addr.base < globals.length) s!"global {base} does not exist"
  | .none => ["invalid address"]

/-- The types that a conversion may go between. -/
def irConversionOk (op : IrOp) (src type : IrType) : Bool :=
  let fs := irTypeSize src
  let ts := irTypeSize type
  match op with
  | .sext | .zext => irTypeIsInt src && irTypeIsInt type && decide (fs < ts)
  | .trunc => irTypeIsInt src && irTypeIsInt type && decide (fs > ts)
  | .sitofp | .uitofp => irTypeIsInt src && irTypeIsFloat type
  | .fptosi | .fptoui => irTypeIsFloat src && irTypeIsInt type
  | .fpext => src == .f32 && type == .f64
  | .fptrunc => src == .f64 && type == .f32
  | .bitcast => fs == ts && src != type
  | _ => false

def irVerifyCall (inst : IrInst) : List String :=
  let call := inst.call
  (match call.calleeKind with
    | .vreg => irVerifyOperand func (some call.callee) .ptr "callee"
    | .direct => irVerifyCheck (globals[call.callee]?.any (·.kind != .data))
        "call to something that is not a function symbol") ++
  call.args.flatMap (fun arg => irVerifyOperand func arg .void "argument") ++
  irVerifyCheck (¬ (call.returnType = .void ∧ inst.dst ≠ none)) "void call with a destination" ++
  irVerifyCheck (¬ (inst.dst ≠ none ∧ irVregType func inst.dst ≠ call.returnType))
    "call destination type does not match the return type"

/-- The checks of the operation of an instruction. -/
def irVerifyOperation (inst : IrInst) : List String :=
  let type := inst.type
  let opName := irOpName inst.op
  let bytes := inst.imm.toInt
  match inst.op with
  | .nop => []
  | .const => irVerifyCheck (irTypeIsIntOrPtr type) "const needs an integer or pointer type"
  | .constFloat => irVerifyCheck (irTypeIsFloat type) "fconst needs a float type"
  | .copy => irVerifyOperand func inst.a type "source"
  | .slotAddr =>
    irVerifyCheck (type = .ptr) "slot_addr produces a ptr" ++
    irVerifyCheck (0 ≤ inst.imm.toInt ∧ inst.imm.toInt < func.slots.length) "slot does not exist"
  | .globalAddr =>
    irVerifyCheck (type = .ptr) "global_addr produces a ptr" ++
    irVerifyCheck (0 ≤ inst.imm.toInt ∧ inst.imm.toInt < globals.length) "global does not exist"
  | .load =>
    irVerifyCheck (type ≠ .void) "load of void (aggregates must be copied with memcpy)" ++
    irVerifyAddr globals func inst.addr
  | .store =>
    irVerifyCheck (type ≠ .void) "store of void (aggregates must be copied with memcpy)" ++
    irVerifyOperand func inst.a type "stored value" ++ irVerifyAddr globals func inst.addr
  | .ptrAdd =>
    irVerifyCheck (type = .ptr) "ptradd produces a ptr" ++
    irVerifyOperand func inst.a .ptr "base" ++ irVerifyOperand func inst.b .i64 "offset"
  | .memcpy =>
    irVerifyOperand func inst.a .ptr "destination" ++ irVerifyOperand func inst.b .ptr "source" ++
    irVerifyCheck (0 < inst.imm.toInt) s!"memcpy of {bytes} bytes"
  | .memset =>
    irVerifyOperand func inst.a .ptr "destination" ++
    irVerifyCheck (0 < inst.imm.toInt) s!"memset of {bytes} bytes"
  | .add | .sub | .mul | .sdiv | .udiv | .srem | .urem | .and | .or | .xor | .shl | .lshr
  | .ashr =>
    irVerifyCheck (irTypeIsInt type)
      s!"{opName} needs an integer type (use ptradd for pointers)" ++
    irVerifyOperand func inst.a type "left" ++ irVerifyOperand func inst.b type "right"
  | .neg | .not =>
    irVerifyCheck (irTypeIsInt type) s!"{opName} needs an integer type" ++
    irVerifyOperand func inst.a type "operand"
  | .fadd | .fsub | .fmul | .fdiv =>
    irVerifyCheck (irTypeIsFloat type) s!"{opName} needs a float type" ++
    irVerifyOperand func inst.a type "left" ++ irVerifyOperand func inst.b type "right"
  | .fneg =>
    irVerifyCheck (irTypeIsFloat type) "fneg needs a float type" ++
    irVerifyOperand func inst.a type "operand"
  | .icmp =>
    irVerifyCheck (irCmpIsInt inst.cmp) "icmp with a non-integer predicate" ++
    irVerifyCheck (irTypeIsIntOrPtr type) "icmp needs integer or pointer operands" ++
    irVerifyCheck (irVregType func inst.dst = .i8) "icmp produces an i8" ++
    irVerifyOperand func inst.a type "left" ++ irVerifyOperand func inst.b type "right"
  | .fcmp =>
    irVerifyCheck (irCmpIsFloat inst.cmp) "fcmp with a non-float predicate" ++
    irVerifyCheck (irTypeIsFloat type) "fcmp needs float operands" ++
    irVerifyCheck (irVregType func inst.dst = .i8) "fcmp produces an i8" ++
    irVerifyOperand func inst.a type "left" ++ irVerifyOperand func inst.b type "right"
  | .sext | .zext | .trunc | .sitofp | .uitofp | .fptosi | .fptoui | .fpext | .fptrunc
  | .bitcast =>
    let src := irTypeName (irVregType func inst.a)
    let result := irTypeName type
    irVerifyOperand func inst.a .void "source" ++
    irVerifyCheck (irConversionOk inst.op (irVregType func inst.a) type)
      s!"invalid conversion {src} -> {result}"
  | .call => irVerifyCall globals func inst

/-- The checks of one instruction. -/
def irVerifyInst (inst : IrInst) : List String :=
  let needsDst := !(inst.op == .store || inst.op == .memcpy || inst.op == .memset ||
    inst.op == .nop || inst.op == .call)
  if needsDst ∧ inst.dst = none then ["instruction needs a destination"]
  else
    (if inst.dst ≠ none ∧ inst.op ≠ .icmp ∧ inst.op ≠ .fcmp ∧ inst.op ≠ .call then
      let actual := irTypeName (irVregType func inst.dst)
      let produced := irTypeName inst.type
      irVerifyCheck (irVregType func inst.dst = inst.type)
        s!"destination has type {actual} but the instruction produces {produced}"
    else []) ++ irVerifyOperation globals func inst

def irVerifyTerm (term : IrTerm) : List String :=
  match term with
  | .none => ["block has no terminator"]
  | .jmp target =>
    irVerifyCheck (func.isPlaced target) "jmp to a block that is not part of the function"
  | .br cond target elseTarget =>
    irVerifyCheck (func.isPlaced target ∧ func.isPlaced elseTarget)
      "br to a block that is not part of the function" ++
    irVerifyCheck (cond ≠ none ∧ irVregType func cond = .i8) "br condition must be an i8"
  | .ret value =>
    let wanted := irTypeName func.returnType
    irVerifyCheck (¬ (func.returnType = .void ∧ value ≠ none)) "ret with a value in a void function" ++
    irVerifyCheck (¬ (func.returnType ≠ .void ∧
      (value = none ∨ irVregType func value ≠ func.returnType))) s!"ret value must have type {wanted}"

/-- How often the vreg is defined, by a parameter or an instruction. -/
def irDefCount (vreg : Vreg) : ℕ :=
  if vreg < func.vregCount then
    (func.params ++ func.blocks.flatMap fun block => block.insts.filterMap IrInst.dst).count vreg
  else 0

def irVerifyBlock (b : ℕ) (block : IrBlock) : List String :=
  irVerifyCheck (block.index = b)
    "block index is out of date (did you call ir_function_finalize?)" ++
  block.insts.flatMap (irVerifyInst globals func) ++ irVerifyTerm func block.term

/-- The checks of parameters, instructions and terminators, and that no vreg has two definitions. -/
def irVerifyStructure : List String :=
  (func.params.mapIdx fun i vreg => irVerifyCheck (vreg < func.vregCount)
    s!"parameter {i} refers to a non-existing vreg").flatten ++
  (func.blocks.mapIdx (irVerifyBlock globals func)).flatten ++
  (List.range func.vregCount).flatMap fun vreg =>
    let count := irDefCount func vreg
    irVerifyCheck (count ≤ 1)
      s!"v{vreg} is defined {count} times (vregs must be defined exactly once)"

/-- Every vreg that is read has a definition. -/
def irVerifyUses : List String :=
  func.blocks.flatMap fun block =>
    (block.insts.flatMap fun inst => (irInstUses inst).flatMap fun vreg =>
      irVerifyCheck (irDefCount func vreg ≠ 0) s!"v{vreg} is used but never defined") ++
    (irTermUses block.term).flatMap fun vreg =>
      irVerifyCheck (irDefCount func vreg ≠ 0) s!"terminator uses v{vreg} which is never defined"

/-- No vreg but the parameters is live where the function starts. -/
def irVerifyPaths : List String :=
  let liveIn := func.params.foldl irBitsetClear ((irComputeLiveness func).liveIn 0)
  (List.range func.vregCount).flatMap fun vreg =>
    irVerifyCheck (irBitsetGet liveIn vreg = false) s!"v{vreg} may be used before it is defined"

/-- Every problem of the function. The later checks only run when the earlier ones found none. -/
def irVerifyFunction : List String :=
  if func.blocks = [] then ["function has no blocks"]
  else if irVerifyStructure globals func ≠ [] then irVerifyStructure globals func
  else if irVerifyUses func ≠ [] then irVerifyUses func
  else irVerifyPaths func

end Messages

@[simp] theorem irVerifyCheck_eq_nil {ok : Prop} [Decidable ok] {message : String} :
    irVerifyCheck ok message = [] ↔ ok := by
  unfold irVerifyCheck
  split <;> simp_all

/-- What the verifier accepts passes the checks of its operation, and has a destination if it needs
one. -/
theorem irVerifyInst_eq_nil {globals : List IrGlobal} {func : IrFunction} {inst : IrInst}
    (accepted : irVerifyInst globals func inst = []) :
    irVerifyOperation globals func inst = [] ∧
      ((!(inst.op == .store || inst.op == .memcpy || inst.op == .memset || inst.op == .nop ||
        inst.op == .call)) = true → inst.dst ≠ none) := by
  unfold irVerifyInst at accepted
  simp only at accepted
  split_ifs at accepted with missing <;>
    exact ⟨(List.append_eq_nil_iff.mp accepted).2, fun needs none => missing ⟨needs, none⟩⟩

namespace IrFunction

variable {globals : List IrGlobal} {func : IrFunction}

/-- What an accepted function is known to be. -/
structure Verified (func : IrFunction) : Prop where
  nonempty : func.blocks ≠ []
  indexed : func.Indexed
  placed : func.TargetsPlaced
  terminated : ∀ block ∈ func.blocks, block.term ≠ .none
  params_lt : ∀ vreg ∈ func.params, vreg < func.vregCount
  defined_once : ∀ vreg, irDefCount func vreg ≤ 1
  used_defined : ∀ block ∈ func.blocks,
    (∀ inst ∈ block.insts, ∀ vreg ∈ irInstUses inst, irDefCount func vreg ≠ 0) ∧
    ∀ vreg ∈ irTermUses block.term, irDefCount func vreg ≠ 0
  live_entry : ∀ vreg, func.flow.LiveAt vreg (0, 0) → vreg ∈ func.params

theorem get_foldl_clear {n : ℕ} (vregs : List Vreg) (set : IrBitset n) (vreg : Vreg) :
    irBitsetGet (vregs.foldl irBitsetClear set) vreg = true ↔
      irBitsetGet set vreg = true ∧ vreg ∉ vregs := by
  induction vregs generalizing set with
  | nil => simp
  | cons head rest ih => simp [ih, and_assoc]

theorem irVerifyFunction_eq_nil : irVerifyFunction globals func = [] ↔ func.blocks ≠ [] ∧
    irVerifyStructure globals func = [] ∧ irVerifyUses func = [] ∧ irVerifyPaths func = [] := by
  unfold irVerifyFunction
  split_ifs <;> simp_all

theorem flatten_mapIdx_eq_nil {α : Type*} {list : List α} {messages : ℕ → α → List String} :
    (list.mapIdx messages).flatten = [] ↔
      ∀ (i : ℕ) (x : α), list[i]? = some x → messages i x = [] := by
  simp only [List.flatten_eq_nil_iff, List.mem_mapIdx]
  constructor
  · rintro empty i x found
    obtain ⟨bound, rfl⟩ := List.getElem?_eq_some_iff.mp found
    exact empty _ ⟨i, bound, rfl⟩
  · rintro empty _ ⟨i, bound, rfl⟩
    exact empty i _ (List.getElem?_eq_getElem bound)

theorem irVerifyStructure_eq_nil : irVerifyStructure globals func = [] ↔
    (∀ vreg ∈ func.params, vreg < func.vregCount) ∧
    (∀ (b : ℕ) (block : IrBlock), func.blocks[b]? = some block →
      irVerifyBlock globals func b block = []) ∧
    ∀ vreg < func.vregCount, irDefCount func vreg ≤ 1 := by
  simp only [irVerifyStructure, List.append_eq_nil_iff, flatten_mapIdx_eq_nil,
    irVerifyCheck_eq_nil, List.flatMap_eq_nil_iff, List.mem_range, and_assoc]
  refine and_congr_left fun _ => ⟨fun bounded vreg mem => ?_, fun bounded i vreg found => ?_⟩
  · obtain ⟨i, found⟩ := List.getElem?_of_mem mem
    exact bounded i vreg found
  · exact bounded vreg (List.mem_of_getElem? found)

theorem irVerifyTerm_eq_nil {term : IrTerm} (accepted : irVerifyTerm func term = []) :
    term ≠ .none ∧ ∀ target ∈ (match term with
      | .jmp target => [target]
      | .br _ target elseTarget => [target, elseTarget]
      | _ => []), func.isPlaced target = true := by
  unfold irVerifyTerm at accepted
  split at accepted <;> simp_all

theorem irVerifyUses_eq_nil : irVerifyUses func = [] ↔ ∀ block ∈ func.blocks,
    (∀ inst ∈ block.insts, ∀ vreg ∈ irInstUses inst, irDefCount func vreg ≠ 0) ∧
    ∀ vreg ∈ irTermUses block.term, irDefCount func vreg ≠ 0 := by
  simp only [irVerifyUses, List.flatMap_eq_nil_iff, List.append_eq_nil_iff, irVerifyCheck_eq_nil]

theorem irDefCount_le {vreg : Vreg} (once : vreg < func.vregCount → irDefCount func vreg ≤ 1) :
    irDefCount func vreg ≤ 1 := by
  by_cases bound : vreg < func.vregCount
  · exact once bound
  · simp [irDefCount, bound]

theorem lt_of_irDefCount {vreg : Vreg} (defined : irDefCount func vreg ≠ 0) :
    vreg < func.vregCount := by
  by_contra above
  exact defined (if_neg above)

/-- A vreg that is live anywhere is read somewhere. -/
theorem exists_use_of_liveAt {vreg : Vreg} {p : Point} (live : func.flow.LiveAt vreg p) :
    ∃ q, func.flow.Use q vreg := by
  induction live with
  | use used => exact ⟨_, used⟩
  | step _ _ _ ih => exact ih

/-- Every point that reads a vreg is an instruction or terminator of a block. -/
theorem used_defined_of_use {vreg : Vreg} (accepted : irVerifyUses func = []) {p : Point}
    (used : func.flow.Use p vreg) : irDefCount func vreg ≠ 0 := by
  obtain ⟨block, atB, ⟨inst, atI, mem⟩ | ⟨-, mem⟩⟩ := used
  · exact (irVerifyUses_eq_nil.mp accepted block (List.mem_of_getElem? atB)).1 inst
      (List.mem_of_getElem? atI) vreg mem
  · exact (irVerifyUses_eq_nil.mp accepted block (List.mem_of_getElem? atB)).2 vreg mem

/-- What the verifier accepts is known to be well formed. -/
theorem verified_of_irVerifyFunction (accepted : irVerifyFunction globals func = []) :
    Verified func := by
  obtain ⟨nonempty, structured, uses, paths⟩ := irVerifyFunction_eq_nil.mp accepted
  obtain ⟨params, blocks, once⟩ := irVerifyStructure_eq_nil.mp structured
  have indexed : func.Indexed := by
    intro b block atB
    have := blocks b block atB
    simp only [irVerifyBlock, List.append_eq_nil_iff, irVerifyCheck_eq_nil] at this
    exact this.1.1
  have terms : ∀ block ∈ func.blocks, irVerifyTerm func block.term = [] := by
    intro block mem
    obtain ⟨b, atB⟩ := List.getElem?_of_mem mem
    exact (List.append_eq_nil_iff.mp (blocks b block atB)).2
  have placed : func.TargetsPlaced := fun block mem => (irVerifyTerm_eq_nil (terms block mem)).2
  refine ⟨nonempty, indexed, placed, fun block mem => (irVerifyTerm_eq_nil (terms block mem)).1,
    params, fun vreg => irDefCount_le (once vreg), irVerifyUses_eq_nil.mp uses, ?_⟩
  intro vreg live
  by_contra notParam
  obtain ⟨p, used⟩ := exists_use_of_liveAt live
  have bound := lt_of_irDefCount (used_defined_of_use uses used)
  have get := (get_liveIn_iff indexed placed bound 0).mpr live
  simp only [irVerifyPaths, List.flatMap_eq_nil_iff, irVerifyCheck_eq_nil, List.mem_range] at paths
  exact absurd ((get_foldl_clear func.params _ vreg).mpr ⟨get, notParam⟩)
    (by simpa using paths vreg bound)

/-! ## Every vreg has one definition -/

theorem two_le_countP {α : Type*} {list : List α} {test : α → Bool} {i j : ℕ} {x y : α}
    (atI : list[i]? = some x) (atJ : list[j]? = some y) (order : i < j) (testX : test x = true)
    (testY : test y = true) : 2 ≤ list.countP test := by
  rw [← List.take_append_drop j list, List.countP_append]
  have first : 0 < (list.take j).countP test := List.countP_pos_iff.mpr
    ⟨x, List.mem_of_getElem? (i := i) (by rw [List.getElem?_take_of_lt order, atI]), testX⟩
  have second : 0 < (list.drop j).countP test := List.countP_pos_iff.mpr
    ⟨y, List.mem_of_getElem? (i := 0) (by simpa using atJ), testY⟩
  omega

/-- How many instructions of the block define the vreg. -/
def defsIn (vreg : Vreg) (block : IrBlock) : ℕ := block.insts.countP (·.dst == some vreg)

theorem irDefCount_eq {vreg : Vreg} (bound : vreg < func.vregCount) : irDefCount func vreg =
    func.params.count vreg + (func.blocks.map (defsIn vreg)).sum := by
  simp only [irDefCount, bound, if_true, List.count_append, List.count_flatMap]
  congr 2
  refine List.map_congr_left fun block _ => ?_
  simp only [Function.comp, List.count, List.countP_filterMap, defsIn]
  refine List.countP_congr fun inst _ => ?_
  cases inst.dst <;> simp

theorem add_le_sum_map {α : Type*} {list : List α} (weight : α → ℕ) {i j : ℕ} {x y : α}
    (atI : list[i]? = some x) (atJ : list[j]? = some y) (order : i < j) :
    weight x + weight y ≤ (list.map weight).sum := by
  rw [← List.take_append_drop j list, List.map_append, List.sum_append]
  refine Nat.add_le_add (List.single_le_sum (fun _ _ => Nat.zero_le _) _ (List.mem_map_of_mem ?_))
    (List.single_le_sum (fun _ _ => Nat.zero_le _) _ (List.mem_map_of_mem ?_))
  · exact List.mem_of_getElem? (i := i) (by rw [List.getElem?_take_of_lt order, atI])
  · exact List.mem_of_getElem? (i := 0) (by simpa using atJ)

namespace Verified

variable (verified : Verified func) {vreg : Vreg} (bound : vreg < func.vregCount)

include verified bound

theorem params_not_defined (param : vreg ∈ func.params) {p : Point} : ¬ func.flow.Def p vreg := by
  rintro ⟨block, atB, inst, atI, defines⟩
  have once := verified.defined_once vreg
  rw [irDefCount_eq bound] at once
  have first : 0 < func.params.count vreg := List.count_pos_iff.mpr param
  have second : 0 < defsIn vreg block :=
    List.countP_pos_iff.mpr ⟨inst, List.mem_of_getElem? atI, by simp [defines]⟩
  have := List.single_le_sum (fun _ _ => Nat.zero_le _) _
    (List.mem_map_of_mem (f := defsIn vreg) (List.mem_of_getElem? atB))
  omega

/-- Two instructions that define one vreg are the same instruction. -/
theorem def_unique {p q : Point} (atP : func.flow.Def p vreg) (atQ : func.flow.Def q vreg) :
    p = q := by
  obtain ⟨b, i⟩ := p
  obtain ⟨c, j⟩ := q
  obtain ⟨block, atB, inst, atI, defines⟩ := atP
  obtain ⟨other, atC, instQ, atJ, definesQ⟩ := atQ
  simp only at atB atI atC atJ
  have once := verified.defined_once vreg
  rw [irDefCount_eq bound] at once
  have inBlock : 0 < defsIn vreg block :=
    List.countP_pos_iff.mpr ⟨inst, List.mem_of_getElem? atI, by simp [defines]⟩
  have inOther : 0 < defsIn vreg other :=
    List.countP_pos_iff.mpr ⟨instQ, List.mem_of_getElem? atJ, by simp [definesQ]⟩
  rcases lt_trichotomy b c with order | rfl | order
  · have := add_le_sum_map (defsIn vreg) atB atC order
    omega
  · cases atB.symm.trans atC
    have total : defsIn vreg block ≤ (func.blocks.map (defsIn vreg)).sum :=
      List.single_le_sum (fun _ _ => Nat.zero_le _) _ (List.mem_map_of_mem (List.mem_of_getElem? atB))
    rcases lt_trichotomy i j with order | rfl | order
    · have : 2 ≤ defsIn vreg block :=
        two_le_countP atI atJ order (by simp [defines]) (by simp [definesQ])
      omega
    · rfl
    · have : 2 ≤ defsIn vreg block :=
        two_le_countP atJ atI order (by simp [definesQ]) (by simp [defines])
      omega
  · have := add_le_sum_map (defsIn vreg) atC atB order
    omega

end Verified

theorem Verified.lt_of_use (verified : Verified func) {vreg : Vreg} {p : Point}
    (used : func.flow.Use p vreg) : vreg < func.vregCount := by
  obtain ⟨block, atB, ⟨inst, atI, mem⟩ | ⟨-, mem⟩⟩ := used
  · exact lt_of_irDefCount ((verified.used_defined block (List.mem_of_getElem? atB)).1 inst
      (List.mem_of_getElem? atI) vreg mem)
  · exact lt_of_irDefCount ((verified.used_defined block (List.mem_of_getElem? atB)).2 vreg mem)

theorem Verified.lt_of_liveAt (verified : Verified func) {vreg : Vreg} {p : Point}
    (live : func.flow.LiveAt vreg p) : vreg < func.vregCount := by
  obtain ⟨q, used⟩ := exists_use_of_liveAt live
  exact verified.lt_of_use used

theorem Verified.params_nodup (verified : Verified func) : func.params.Nodup := by
  rw [List.nodup_iff_count_le_one]
  intro vreg
  by_cases mem : vreg ∈ func.params
  · have once := verified.defined_once vreg
    rw [irDefCount_eq (verified.params_lt vreg mem)] at once
    omega
  · simp [List.count_eq_zero_of_not_mem mem]

/-- No instruction that a run can get to reads the vreg that it defines. -/
theorem Verified.not_use_of_def (verified : Verified func) {vreg : Vreg} {p : Point}
    (reached : func.Reachable p) (defines : func.flow.Def p vreg) : ¬ func.flow.Use p vreg := by
  intro used
  have bound := verified.lt_of_use used
  have atEntry : func.flow.LiveAt vreg (0, 0) :=
    FlowGraph.LiveAt.of_path_of_defs_used reached (.use used) fun d other =>
      verified.def_unique bound other defines ▸ used
  exact verified.params_not_defined bound (verified.live_entry vreg atEntry) defines

end IrFunction

end Saad
