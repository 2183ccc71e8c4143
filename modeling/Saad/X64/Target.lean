import Saad.Regalloc.Intervals

/-! # The registers of the x64 backend

`rax`, `rcx`, `rdx`, `r10` and `r11` are never allocated: return values, shift counts, division and
scratch for spilled operands. The Win64 convention says which ones a callee saves.
-/

namespace Saad

inductive X64Reg
  | rax | rcx | rdx | rbx | rsp | rbp | rsi | rdi
  | r8 | r9 | r10 | r11 | r12 | r13 | r14 | r15
  | xmm0 | xmm1 | xmm2 | xmm3 | xmm4 | xmm5 | xmm6 | xmm7
  | xmm8 | xmm9 | xmm10 | xmm11 | xmm12 | xmm13 | xmm14 | xmm15
deriving DecidableEq, Repr, Inhabited

namespace X64Reg

/-- The registers in the order of their numbers. -/
def all : List X64Reg :=
  [.rax, .rcx, .rdx, .rbx, .rsp, .rbp, .rsi, .rdi, .r8, .r9, .r10, .r11, .r12, .r13, .r14, .r15,
    .xmm0, .xmm1, .xmm2, .xmm3, .xmm4, .xmm5, .xmm6, .xmm7, .xmm8, .xmm9, .xmm10, .xmm11, .xmm12,
    .xmm13, .xmm14, .xmm15]

/-- The number of a register in the tables of a `TargetDesc`. -/
def number (reg : X64Reg) : ℕ := all.idxOf reg

/-- The register with a number. -/
def ofNumber (n : ℕ) : X64Reg := all.getD n .rax

@[simp] theorem ofNumber_number (reg : X64Reg) : ofNumber reg.number = reg := by
  cases reg <;> rfl

theorem number_injective : Function.Injective number :=
  Function.LeftInverse.injective ofNumber_number

end X64Reg

/-- The caller-saved ones first, so that short-lived values do not make the prologue save more. -/
def x64AllocatableGprs : List X64Reg :=
  [.r8, .r9, .rbx, .rsi, .rdi, .r12, .r13, .r14, .r15]

def x64AllocatableXmms : List X64Reg :=
  [.xmm0, .xmm1, .xmm2, .xmm3, .xmm4, .xmm5, .xmm6, .xmm7, .xmm8, .xmm9, .xmm10, .xmm11, .xmm12,
    .xmm13]

def x64CalleeSaved : List X64Reg :=
  [.rbx, .rbp, .rsi, .rdi, .r12, .r13, .r14, .r15, .xmm6, .xmm7, .xmm8, .xmm9, .xmm10, .xmm11,
    .xmm12, .xmm13, .xmm14, .xmm15]

def x64Target : TargetDesc where
  allocatable
    | .gpr => x64AllocatableGprs.map X64Reg.number
    | .fpr => x64AllocatableXmms.map X64Reg.number
  isCalleeSaved reg := decide (reg ∈ x64CalleeSaved.map X64Reg.number)

end Saad
