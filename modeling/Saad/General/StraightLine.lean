import Mathlib.Data.List.Basic

/-! # Straight-line code

Instructions run one after the other; each may fail. `Runs` says that a piece of code runs to its end
in a state that has a property, and its rules take the code apart.
-/

namespace Saad.General

variable {I S : Type*} (exec : I → S → Option S)

/-- Runs the instructions in order. -/
def execAll (code : List I) (state : S) : Option S :=
  code.foldlM (fun state inst => exec inst state) state

/-- The code runs to its end, in a state with the property. -/
def Runs (code : List I) (state : S) (post : S → Prop) : Prop :=
  ∃ last, execAll exec code state = some last ∧ post last

namespace Runs

variable {exec} {code rest : List I} {inst : I} {state next : S} {post weaker : S → Prop}

theorem nil (holds : post state) : Runs exec [] state post := ⟨state, rfl, holds⟩

theorem cons (step : exec inst state = some next) (runs : Runs exec rest next post) :
    Runs exec (inst :: rest) state post := by
  obtain ⟨last, all, holds⟩ := runs
  exact ⟨last, by simpa [execAll, step] using all, holds⟩

theorem single (step : exec inst state = some next) (holds : post next) :
    Runs exec [inst] state post := cons step (nil holds)

theorem append (first : Runs exec code state fun middle => Runs exec rest middle post) :
    Runs exec (code ++ rest) state post := by
  obtain ⟨middle, before, last, after, holds⟩ := first
  refine ⟨last, ?_, holds⟩
  rw [execAll] at before after ⊢
  rw [List.foldlM_append, before]
  exact after

theorem of_append (runs : Runs exec (code ++ rest) state post) :
    Runs exec code state fun middle => Runs exec rest middle post := by
  obtain ⟨last, all, holds⟩ := runs
  rw [execAll, List.foldlM_append] at all
  obtain ⟨middle, before, after⟩ := Option.bind_eq_some_iff.mp all
  exact ⟨middle, before, last, after, holds⟩

theorem mono (runs : Runs exec code state post) (imp : ∀ last, post last → weaker last) :
    Runs exec code state weaker := by
  obtain ⟨last, all, holds⟩ := runs
  exact ⟨last, all, imp last holds⟩

/-- Code has one run. -/
theorem and (runs : Runs exec code state post) (other : Runs exec code state weaker) :
    Runs exec code state fun last => post last ∧ weaker last := by
  obtain ⟨last, all, holds⟩ := runs
  obtain ⟨last', all', holds'⟩ := other
  obtain rfl := Option.some.inj (all.symm.trans all')
  exact ⟨last, all, holds, holds'⟩

/-- Code that fails has no run. -/
theorem not_of_none (fails : execAll exec code state = none) : ¬ Runs exec code state post := by
  rintro ⟨last, all, -⟩
  exact absurd (fails.symm.trans all) (by simp)

/-- An instruction that no state can run stops the code that has it. -/
theorem not_of_stuck (stuck : ∀ middle, exec inst middle = none) :
    ¬ Runs exec (code ++ [inst] ++ rest) state post := by
  refine not_of_none ?_
  rw [execAll, List.append_assoc, List.foldlM_append]
  cases List.foldlM (fun state inst => exec inst state) state code with
  | none => rfl
  | some middle => simp [stuck]

end Runs

end Saad.General
