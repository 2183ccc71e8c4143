import Mathlib.Data.Set.Finite.Basic
import Saad.X64.AsmSymbols

/-! # When different names become different symbols

The assembler reads at most 158 bytes of the name of a global, and 159 of a label behind its scope.
So the symbols are different exactly if these bytes of them are. A name that is not taken is found
unless a name fills the buffer of the candidates.
-/

namespace Saad

open General

section Digits

theorem symbolByte_of_digit : ∀ byte : BitVec 8, 48 ≤ byte.toNat ∧ byte.toNat ≤ 57 →
    isSymbolByte byte = true ∧ byte ≠ dot := by
  decide

end Digits

section Lines

theorem plain_of_symbolByte : ∀ byte : BitVec 8, isSymbolByte byte = true →
    byte ≠ 0x22 ∧ byte ≠ 0x27 ∧ byte ≠ 0x3B ∧ isAsmBlank byte = false := by
  decide

theorem unsigned_of_symbolByte : ∀ byte : BitVec 8, isSymbolByte byte = true →
    (byte != 0x2B && byte != 0x2D) = true := by
  decide

theorem asmStripComment_of_plain {line : Text}
    (plain : ∀ byte ∈ line, byte ≠ 0x22 ∧ byte ≠ 0x27 ∧ byte ≠ 0x3B) :
    asmStripComment false line = line := by
  induction line with
  | nil => rfl
  | cons byte rest ih =>
    obtain ⟨double, single, comment⟩ := plain byte List.mem_cons_self
    rw [asmStripComment]
    simp only [beq_false_of_ne double, beq_false_of_ne single, beq_false_of_ne comment,
      Bool.or_self, Bool.false_and, Bool.false_eq_true, if_false]
    rw [ih fun other member => plain other (List.mem_cons_of_mem byte member)]

/-- A line of symbol bytes with a colon behind them is a label. -/
theorem asmLabel_of_symbolBytes (scope : Text) {body : Text} (nonempty : body ≠ [])
    (valid : ∀ byte ∈ body, isSymbolByte byte = true) :
    asmLabel scope (body ++ [colon]) = some (asmSymbolName body (some scope) 160) := by
  have plain : ∀ byte ∈ body ++ [colon], byte ≠ 0x22 ∧ byte ≠ 0x27 ∧ byte ≠ 0x3B := by
    intro byte member
    obtain member | last := List.mem_append.mp member
    · obtain ⟨double, single, comment, -⟩ := plain_of_symbolByte byte (valid byte member)
      exact ⟨double, single, comment⟩
    · rw [List.mem_singleton.mp last]
      decide
  have trimmed : asmTrimEnd (body ++ [colon]) = body ++ [colon] :=
    List.rdropWhile_concat_neg _ _ _ (by decide)
  have head : (body ++ [colon]).head?.any (fun byte => !isAsmBlank byte) = true := by
    cases body with
    | nil => exact absurd rfl nonempty
    | cons first rest =>
      obtain ⟨-, -, -, blank⟩ := plain_of_symbolByte first (valid first List.mem_cons_self)
      simp [blank]
  simp only [asmLabel, asmStripComment_of_plain plain, trimmed, head, List.getLast?_append,
    List.getLast?_singleton, Option.some_or, decide_true, Bool.and_self, if_true,
    List.dropLast_concat]

theorem x64SymbolText_eq (name : Text) : x64SymbolText name = dollar :: name.take 158 := rfl

theorem symbolText_valid (name : SymbolName) :
    ∀ byte ∈ x64SymbolText name.bytes, isSymbolByte byte = true := by
  intro byte member
  rw [x64SymbolText_eq] at member
  obtain rfl | member := List.mem_cons.mp member
  · decide
  · exact name.valid byte (List.mem_of_mem_take member)

/-- The name comes out of the text of the symbol again, as far as it fits into the buffer there. -/
theorem asmSymbolName_symbolText (name : SymbolName) (scope : Option Text) :
    asmSymbolName (x64SymbolText name.bytes) scope 160 = name.bytes.take 158 := by
  have no_dot : (name.bytes.take 158).head? ≠ some dot := by
    rw [List.head?_take]
    exact name.no_dot
  have fits : cut 160 (name.bytes.take 158) = name.bytes.take 158 := by
    apply cut_of_fits
    rw [List.length_take]
    omega
  unfold asmSymbolName
  rw [x64SymbolText_eq, List.head?_cons, if_pos rfl, List.tail_cons]
  cases scope with
  | none => exact fits
  | some scope => exact (if_neg no_dot).trans fits

/-- All uses of a global in the text of the emitter are read as the symbol of the global. -/
theorem uses_agree (name : SymbolName) (scope : Text) :
    asmExtern (x64SymbolText name.bytes) = name.bytes.take 158 ∧
      asmLabelOperand scope (x64SymbolText name.bytes) = name.bytes.take 158 ∧
      asmRelOperand scope (asciiBytes "rel " ++ x64SymbolText name.bytes) = name.bytes.take 158 := by
  refine ⟨asmSymbolName_symbolText name none, asmSymbolName_symbolText name (some scope), ?_⟩
  have valid := symbolText_valid name
  have no_blank : (asciiBytes "rel " ++ x64SymbolText name.bytes).filter (!isAsmBlank ·) =
      asciiBytes "rel" ++ x64SymbolText name.bytes := by
    rw [List.filter_append]
    congr 1
    apply List.filter_eq_self.mpr
    intro byte member
    obtain ⟨-, -, -, blank⟩ := plain_of_symbolByte byte (valid byte member)
    rw [blank]
    rfl
  have fits : (asciiBytes "rel" ++ x64SymbolText name.bytes).take 255 =
      asciiBytes "rel" ++ x64SymbolText name.bytes := by
    apply List.take_of_length_le
    have : (asciiBytes "rel").length = 3 := rfl
    rw [List.length_append, x64SymbolText_eq, List.length_cons, List.length_take]
    omega
  have no_sign : (x64SymbolText name.bytes).takeWhile (fun byte => byte != 0x2B && byte != 0x2D) =
      x64SymbolText name.bytes := by
    apply List.takeWhile_eq_self_iff.mpr
    intro byte member
    exact unsigned_of_symbolByte byte (valid byte member)
  have after : (asciiBytes "rel" ++ x64SymbolText name.bytes).drop 3 = x64SymbolText name.bytes := rfl
  unfold asmRelOperand
  simp only [no_blank, fits, after, no_sign]
  exact asmSymbolName_symbolText name (some scope)

/-- A label begins with its only dot. -/
theorem LocalLabel.text_eq (label : LocalLabel) : ∃ rest, label.text = dot :: rest ∧
    ∀ byte ∈ rest, isSymbolByte byte = true ∧ byte ≠ dot := by
  have numbered : ∀ (start : Text) (n : ℕ),
      (∀ byte ∈ start, isSymbolByte byte = true ∧ byte ≠ dot) →
      ∀ byte ∈ start ++ decimalText n, isSymbolByte byte = true ∧ byte ≠ dot := by
    intro start n valid byte member
    obtain first | digit := List.mem_append.mp member
    · exact valid byte first
    · exact symbolByte_of_digit byte (digit_of_mem_decimalText digit)
  cases label with
  | block id => exact ⟨asciiBytes "L" ++ decimalText id, rfl, numbered _ id (by decide)⟩
  | inner n => exact ⟨asciiBytes "Lx" ++ decimalText n, rfl, numbered _ n (by decide)⟩
  | debug n => exact ⟨asciiBytes "Ldbg" ++ decimalText n, rfl, numbered _ n (by decide)⟩
  | stackProbe => exact ⟨asciiBytes "Lstack_probe", rfl, by decide⟩

theorem asmLabel_local (scope : Text) (label : LocalLabel) :
    asmLabel scope (label.text ++ [colon]) = some (cut 160 (scope ++ label.text)) := by
  obtain ⟨rest, text, valid⟩ := label.text_eq
  have all_valid : ∀ byte ∈ label.text, isSymbolByte byte = true := by
    rw [text]
    intro byte member
    obtain rfl | later := List.mem_cons.mp member
    · decide
    · exact (valid byte later).1
  rw [asmLabel_of_symbolBytes scope (by rw [text]; exact List.cons_ne_nil _ _) all_valid]
  unfold asmSymbolName
  rw [text, List.head?_cons, if_neg (by decide)]
  exact congrArg some (if_pos rfl)

theorem asmLabel_global (scope : Text) (name : SymbolName) :
    asmLabel scope (x64SymbolText name.bytes ++ [colon]) = some (name.bytes.take 158) := by
  rw [asmLabel_of_symbolBytes scope (by rw [x64SymbolText_eq]; exact List.cons_ne_nil _ _)
    (symbolText_valid name), asmSymbolName_symbolText]

end Lines

section Symbols

/-- What the assembler keeps of the name of the global. -/
def NamedGlobal.kept (global : NamedGlobal) : Text := global.name.bytes.take 158

/-- The symbols that the lines of a global define. -/
def NamedGlobal.symbols (global : NamedGlobal) : List Text :=
  global.kept :: global.labels.all.map fun label => cut 160 (global.kept ++ label.text)

theorem readLabels_local (scope : Text) (labels : List LocalLabel) (rest : List Text) :
    readLabels scope (labels.map (fun label => label.text ++ [colon]) ++ rest) =
      labels.map (fun label => cut 160 (scope ++ label.text)) ++ readLabels scope rest := by
  induction labels with
  | nil => rfl
  | cons label labels ih =>
    obtain ⟨after, text, -⟩ := label.text_eq
    rw [List.map_cons, List.cons_append, readLabels, asmLabel_local]
    have dotted : ¬ (label.text ++ [colon]).head? ≠ some dot := by
      rw [text]
      exact not_not.mpr rfl
    simp only [if_neg dotted, ih, List.map_cons, List.cons_append]

/-- The lines of a global define its symbols, whatever came before. -/
theorem readLabels_lines (scope : Text) (global : NamedGlobal) (rest : List Text) :
    ∃ after, readLabels scope (global.lines ++ rest) = global.symbols ++ readLabels after rest := by
  refine ⟨global.kept, ?_⟩
  have undotted : (x64SymbolText global.name.bytes ++ [colon]).head? ≠ some dot := by
    rw [x64SymbolText_eq, List.cons_append, List.head?_cons]
    decide
  have scope_fits : cut 160 global.kept = global.kept := by
    apply cut_of_fits
    rw [NamedGlobal.kept, List.length_take]
    omega
  rw [NamedGlobal.lines, List.cons_append, readLabels, asmLabel_global]
  simp only [if_pos undotted]
  change global.kept :: readLabels (cut 160 global.kept) _ = _
  rw [scope_fits, readLabels_local]
  rfl

theorem readLabels_flatMap (scope : Text) (globals : List NamedGlobal) :
    readLabels scope (globals.flatMap NamedGlobal.lines) = globals.flatMap NamedGlobal.symbols := by
  induction globals generalizing scope with
  | nil => rfl
  | cons global rest ih =>
    obtain ⟨after, reads⟩ := readLabels_lines scope global (rest.flatMap NamedGlobal.lines)
    rw [List.flatMap_cons, List.flatMap_cons, reads, ih after]

theorem SymbolModule.symbols_eq (m : SymbolModule) :
    m.symbols = m.globals.flatMap NamedGlobal.symbols := by
  have externs : (m.externs.map fun name => asmExtern (x64SymbolText name.bytes)) =
      (m.externs.map (NamedGlobal.mk · {})).flatMap NamedGlobal.symbols := by
    rw [List.flatMap_map]
    induction m.externs with
    | nil => rfl
    | cons name rest ih =>
      rw [List.map_cons, List.flatMap_cons, ih, (uses_agree name []).1]
      rfl
  have data : m.data.flatMap (fun name => (NamedGlobal.mk name {}).lines) =
      (m.data.map (NamedGlobal.mk · {})).flatMap NamedGlobal.lines := by
    rw [List.flatMap_map]
  rw [symbols, externs, data, ← List.flatMap_append, readLabels_flatMap, ← List.flatMap_append,
    globals, List.append_assoc]

end Symbols

section Apart

variable {global other : NamedGlobal} {label : LocalLabel}

theorem NamedGlobal.length_kept_le (global : NamedGlobal) : global.kept.length ≤ 158 :=
  List.length_take_le _ _

theorem NamedGlobal.kept_of_short (short : global.name.bytes.length ≤ 158) :
    global.kept = global.name.bytes :=
  List.take_of_length_le short

theorem LocalLabel.length_text_pos (label : LocalLabel) : 0 < label.text.length := by
  obtain ⟨rest, text, -⟩ := label.text_eq
  rw [text, List.length_cons]
  omega

/-- Where a label ends up in the buffer of its symbol. -/
theorem cut_label (global : NamedGlobal) (label : LocalLabel) :
    cut 160 (global.kept ++ label.text) =
      global.kept ++ label.text.take (159 - global.kept.length) := by
  have := global.length_kept_le
  exact cut_append (by omega)

/-- A symbol of a global is that of a label only if the whole label fits behind its scope. -/
theorem kept_eq_label_iff :
    global.kept = cut 160 (other.kept ++ label.text) ↔
      global.kept = other.name.bytes ++ label.text := by
  have short := global.length_kept_le
  have positive := label.length_text_pos
  have whole : ∀ fits : other.name.bytes.length + label.text.length ≤ 158,
      cut 160 (other.kept ++ label.text) = other.name.bytes ++ label.text := by
    intro fits
    rw [NamedGlobal.kept_of_short (by omega), cut_of_fits]
    rw [List.length_append]
    omega
  constructor
  · intro equal
    have length := congrArg List.length equal
    rw [length_cut, List.length_append, NamedGlobal.kept, NamedGlobal.kept, List.length_take,
      List.length_take] at length
    rw [equal, whole (by omega)]
  · intro equal
    have length := congrArg List.length equal
    rw [List.length_append] at length
    rw [equal, whole (by omega)]

/-- Labels behind different scopes stay different, as the dot in the buffer ends the scope. -/
theorem scope_eq_of_cut_eq {scope other first second : Text} (scope_le : scope.length ≤ 158)
    (other_le : other.length ≤ 158) (no_dot : dot ∉ first) (other_no_dot : dot ∉ second)
    (equal : cut 160 (scope ++ dot :: first) = cut 160 (other ++ dot :: second)) : scope = other := by
  have at_index : ∀ index < 159, (scope ++ dot :: first)[index]? = (other ++ dot :: second)[index]? := by
    intro index lt
    have same := congrArg (·[index]?) equal
    simpa only [cut, List.getElem?_take, if_pos lt] using same
  have dot_at : ∀ (text rest : Text), (text ++ dot :: rest)[text.length]? = some dot := by
    intro text rest
    rw [List.getElem?_append_right le_rfl, Nat.sub_self, List.getElem?_cons_zero]
  have none_later : ∀ (text rest : Text) (index : ℕ), dot ∉ rest → text.length < index →
      (text ++ dot :: rest)[index]? ≠ some dot := by
    intro text rest index absent later found
    rw [List.getElem?_append_right (by omega),
      show index - text.length = index - text.length - 1 + 1 by omega, List.getElem?_cons_succ] at found
    exact absent (List.mem_of_getElem? found)
  have length : scope.length = other.length := by
    obtain shorter | same | longer := lt_trichotomy scope.length other.length
    · exact absurd ((at_index _ (by omega)).trans (dot_at other second))
        (none_later scope first _ no_dot shorter)
    · exact same
    · exact absurd ((at_index _ (by omega)).symm.trans (dot_at scope first))
        (none_later other second _ other_no_dot longer)
  have taken := congrArg (List.take scope.length) equal
  rw [cut, cut, List.take_take, List.take_take, min_eq_left (by omega), List.take_left, length,
    List.take_left] at taken
  exact taken

theorem kept_eq_of_labels_eq {other_label : LocalLabel}
    (equal : cut 160 (global.kept ++ label.text) = cut 160 (other.kept ++ other_label.text)) :
    global.kept = other.kept := by
  obtain ⟨first, text, valid⟩ := label.text_eq
  obtain ⟨second, other_text, other_valid⟩ := other_label.text_eq
  rw [text, other_text] at equal
  exact scope_eq_of_cut_eq global.length_kept_le other.length_kept_le
    (fun member => (valid dot member).2 rfl) (fun member => (other_valid dot member).2 rfl) equal

/-- The symbols of one global are different if what fits of its labels is. -/
theorem nodup_symbols_iff (global : NamedGlobal) : global.symbols.Nodup ↔
    (global.labels.all.map fun label => label.text.take (159 - global.kept.length)).Nodup := by
  have mapped : (global.labels.all.map fun label => cut 160 (global.kept ++ label.text)) =
      (global.labels.all.map fun label => label.text.take (159 - global.kept.length)).map
        (global.kept ++ ·) := by
    rw [List.map_map]
    exact List.map_congr_left fun label _ => cut_label global label
  have no_label : global.kept ∉
      global.labels.all.map fun label => cut 160 (global.kept ++ label.text) := by
    intro member
    obtain ⟨label, -, equal⟩ := List.mem_map.mp member
    have length := congrArg List.length (kept_eq_label_iff.mp equal.symm)
    have positive := label.length_text_pos
    rw [List.length_append, NamedGlobal.kept, List.length_take] at length
    omega
  rw [NamedGlobal.symbols, List.nodup_cons, and_iff_right no_label, mapped,
    List.nodup_map_iff (List.append_right_injective global.kept)]

theorem kept_notMem_labels_iff :
    (global.kept ∉ other.labels.all.map fun label => cut 160 (other.kept ++ label.text)) ↔
      ∀ label ∈ other.labels.all, global.kept ≠ other.name.bytes ++ label.text := by
  constructor
  · intro absent label member equal
    exact absent (List.mem_map.mpr ⟨label, member, (kept_eq_label_iff.mpr equal).symm⟩)
  · intro different member
    obtain ⟨label, label_member, equal⟩ := List.mem_map.mp member
    exact different label label_member (kept_eq_label_iff.mp equal.symm)

/-- Two globals share no symbol if neither is the name or a label of the other. -/
theorem disjoint_symbols_iff :
    global.symbols.Disjoint other.symbols ↔ global.kept ≠ other.kept ∧
      (∀ label ∈ other.labels.all, global.kept ≠ other.name.bytes ++ label.text) ∧
      ∀ label ∈ global.labels.all, other.kept ≠ global.name.bytes ++ label.text := by
  rw [← kept_notMem_labels_iff, ← kept_notMem_labels_iff, NamedGlobal.symbols, NamedGlobal.symbols,
    List.disjoint_cons_left, List.disjoint_cons_right, List.mem_cons, not_or]
  constructor
  · rintro ⟨⟨different, in_labels⟩, labels, -⟩
    exact ⟨different, in_labels, labels⟩
  · rintro ⟨different, in_labels, labels⟩
    refine ⟨⟨different, in_labels⟩, labels, ?_⟩
    intro symbol member other_member
    obtain ⟨label, -, equal⟩ := List.mem_map.mp member
    obtain ⟨other_label, -, other_equal⟩ := List.mem_map.mp other_member
    exact different (kept_eq_of_labels_eq (equal.trans other_equal.symm))

end Apart

/-- What has to be different for all symbols to be. -/
structure NamesApart (m : SymbolModule) : Prop where
  /-- No two names agree in the bytes that are kept of them. -/
  names : (m.globals.map NamedGlobal.kept).Nodup
  /-- No two labels of a function agree in what fits behind its name. -/
  labels : ∀ global ∈ m.globals,
    (global.labels.all.map fun label => label.text.take (159 - global.kept.length)).Nodup
  /-- No name is the name of a function with one of its labels. -/
  scopes : ∀ global ∈ m.globals, ∀ function ∈ m.globals, ∀ label ∈ function.labels.all,
    global.kept ≠ function.name.bytes ++ label.text

theorem SymbolModule.nodup_symbols_iff (m : SymbolModule) : m.symbols.Nodup ↔ NamesApart m := by
  rw [m.symbols_eq, List.nodup_flatMap]
  constructor
  · rintro ⟨each, apart⟩
    constructor
    case names =>
      apply List.pairwise_map.mpr
      apply apart.imp
      intro global other disjoint
      exact (disjoint_symbols_iff.mp disjoint).1
    case labels =>
      intro global member
      exact (Saad.nodup_symbols_iff global).mp (each global member)
    case scopes =>
      intro global member function function_member label label_member equal
      have different : global ≠ function := by
        rintro rfl
        have length := congrArg List.length equal
        have := label.length_text_pos
        rw [List.length_append, NamedGlobal.kept, List.length_take] at length
        omega
      have symmetric : Std.Symm (Function.onFun List.Disjoint NamedGlobal.symbols) :=
        ⟨fun _ _ disjoint => disjoint.symm⟩
      have disjoint := apart.forall member function_member different
      exact (disjoint_symbols_iff.mp disjoint).2.1 label label_member equal
  · intro apart
    constructor
    · intro global member
      exact (Saad.nodup_symbols_iff global).mpr (apart.labels global member)
    · apply (List.pairwise_map.mp apart.names).imp_of_mem
      intro global other member other_member different
      exact disjoint_symbols_iff.mpr ⟨different, apart.scopes global member other other_member,
        apart.scopes other other_member global member⟩

section UniqueNames

variable {m : SymbolModule} {name : Text} {size : ℕ}

/-- The candidates of `irUniqueName`, one after the other. -/
def candidate (name : Text) (size : ℕ) : ℕ → Text
  | 0 => cut size name
  | n + 1 => cut size (name ++ asciiBytes "__" ++ decimalText (n + 2))

theorem iterate_candidate (name : Text) (size turn : ℕ) :
    (fun state : ℕ × Text =>
        (state.1 + 1, cut size (name ++ asciiBytes "__" ++ decimalText state.1)))^[turn]
      (2, cut size name) = (turn + 2, candidate name size turn) := by
  induction turn with
  | zero => rfl
  | succ turn ih =>
    rw [Function.iterate_succ_apply', ih]
    rfl

/-- The search ends with a name that is not taken if there is one among the candidates. -/
theorem irUniqueName_ends_iff :
    (∃ fuel unique, m.irUniqueName name size fuel = some unique ∧ unique ∉ m.names) ↔
      ∃ turn, candidate name size turn ∉ m.names := by
  constructor
  · rintro ⟨fuel, unique, finds, free⟩
    obtain ⟨turn, -, at_turn, -⟩ := exists_turn_of_loopUntil_eq_some finds
    rw [iterate_candidate] at at_turn
    refine ⟨turn, ?_⟩
    intro taken
    simp only [if_pos taken] at at_turn
    cases at_turn
  · intro exists_free
    let turn := Nat.find exists_free
    refine ⟨turn + 1, candidate name size turn, ?_, Nat.find_spec exists_free⟩
    apply loopUntil_eq_some_of_turn (Nat.lt_succ_self turn)
    · intro earlier lt
      rw [iterate_candidate]
      exact if_pos (not_not.mp (Nat.find_min exists_free lt))
    · rw [iterate_candidate]
      exact if_neg (Nat.find_spec exists_free)

theorem candidate_injOn {bound : ℕ} (fits : ∀ n ≤ bound,
    (name ++ asciiBytes "__" ++ decimalText (n + 2)).length < size) :
    Set.InjOn (fun n => candidate name size (n + 1)) (Set.Iic bound) := by
  intro first first_le second second_le equal
  rw [Set.mem_Iic] at first_le second_le
  have same : cut size (name ++ asciiBytes "__" ++ decimalText (first + 2)) =
      cut size (name ++ asciiBytes "__" ++ decimalText (second + 2)) := equal
  rw [cut_of_fits (fits first first_le), cut_of_fits (fits second second_le)] at same
  have digits := decimalText_injective (List.append_cancel_left same)
  omega

theorem exists_candidate_of_fits (fits : ∀ n ≤ m.names.length,
    (name ++ asciiBytes "__" ++ decimalText (n + 2)).length < size) :
    ∃ turn, candidate name size turn ∉ m.names := by
  obtain ⟨n, -, free⟩ := General.exists_free (candidate_injOn fits)
  exact ⟨n + 1, free⟩

/-- A candidate that is cut fills the buffer, so it is free if no name does. -/
theorem irUniqueName_always_ends_iff :
    (∀ name, ∃ fuel unique, m.irUniqueName name size fuel = some unique ∧ unique ∉ m.names) ↔
      ∀ name ∈ m.names, name.length ≠ size - 1 := by
  constructor
  · intro ends name taken full
    obtain ⟨turn, free⟩ := irUniqueName_ends_iff.mp (ends name)
    apply free
    have same : candidate name size turn = name := by
      cases turn with
      | zero => exact List.take_of_length_le full.le
      | succ n =>
        rw [candidate, cut, List.append_assoc, ← full]
        exact List.take_left
    rw [same]
    exact taken
  · intro unfilled name
    apply irUniqueName_ends_iff.mpr
    by_contra all_taken
    push Not at all_taken
    have fits : ∀ n ≤ m.names.length,
        (name ++ asciiBytes "__" ++ decimalText (n + 2)).length < size := by
      intro n _
      by_contra long
      apply unfilled _ (all_taken (n + 1))
      exact length_cut_of_full (by omega)
    obtain ⟨turn, free⟩ := exists_candidate_of_fits fits
    exact free (all_taken turn)

/-- The buffer of `thunk_global` always has room for the number. -/
theorem thunkGlobalName_ends (m : SymbolModule) (name : Text) :
    ∃ fuel unique, m.thunkGlobalName name fuel = some unique ∧ unique ∉ m.names := by
  apply irUniqueName_ends_iff.mpr
  apply exists_candidate_of_fits
  intro n le
  have count := m.count_lt
  have length : m.names.length = m.externs.length + m.data.length + m.functions.length := by
    rw [SymbolModule.names, SymbolModule.globals, List.length_map, List.length_append,
      List.length_append, List.length_map, List.length_map]
  have digits : (decimalText (n + 2)).length ≤ 10 :=
    length_decimalText_le (by omega) (by omega)
  have start : (cut 300 (asciiBytes "invoke_" ++ name)).length ≤ 299 := List.length_take_le _ _
  have middle : (asciiBytes "__").length = 2 := rfl
  rw [List.length_append, List.length_append]
  omega

end UniqueNames

/-- Every global and label has a symbol of its own, and new names can always be found. -/
structure SymbolsApart (m : SymbolModule) : Prop where
  apart : m.symbols.Nodup
  /-- A label line and all uses of a global are read as one symbol, whatever the scope. -/
  uses : ∀ global ∈ m.globals, ∀ scope,
    asmLabel scope (x64SymbolText global.name.bytes ++ [colon]) =
        some (asmExtern (x64SymbolText global.name.bytes)) ∧
      asmLabelOperand scope (x64SymbolText global.name.bytes) =
        asmExtern (x64SymbolText global.name.bytes) ∧
      asmRelOperand scope (asciiBytes "rel " ++ x64SymbolText global.name.bytes) =
        asmExtern (x64SymbolText global.name.bytes)
  functionNames : ∀ name,
    ∃ fuel unique, m.functionGlobalName name fuel = some unique ∧ unique ∉ m.names
  thunkNames : ∀ name,
    ∃ fuel unique, m.thunkGlobalName name fuel = some unique ∧ unique ∉ m.names

/-- All symbols are different and all searches end exactly if the names differ in what is kept of
them, and none fills the buffer of the search. -/
theorem symbolsApart_iff (m : SymbolModule) :
    SymbolsApart m ↔ NamesApart m ∧ ∀ name ∈ m.names, name.length ≠ 255 := by
  constructor
  · intro apart
    exact ⟨m.nodup_symbols_iff.mp apart.apart,
      irUniqueName_always_ends_iff.mp apart.functionNames⟩
  · rintro ⟨apart, unfilled⟩
    constructor
    case apart => exact m.nodup_symbols_iff.mpr apart
    case uses =>
      intro global _ scope
      obtain ⟨extern_line, operand, rel⟩ := uses_agree global.name scope
      rw [asmLabel_global, extern_line, operand, rel]
      exact ⟨rfl, rfl, rfl⟩
    case functionNames => exact irUniqueName_always_ends_iff.mpr unfilled
    case thunkNames => exact thunkGlobalName_ends m

section LongNames

/-- A name of 158 times the same letter and then another one. -/
def longName (last : BitVec 8) (valid : isSymbolByte last = true) : SymbolName where
  bytes := List.replicate 158 0x61 ++ [last]
  valid := by
    intro byte member
    obtain same | last_eq := List.mem_append.mp member
    · rw [List.eq_of_mem_replicate same]
      decide
    · rw [List.mem_singleton.mp last_eq]
      exact valid
  no_dot := by
    rw [List.replicate_succ, List.cons_append, List.head?_cons]
    decide

/-- Two functions whose names only differ in their last letter. -/
def longNames : SymbolModule where
  externs := []
  data := []
  functions :=
    [{ name := longName 0x62 (by decide), labels := { blocks_nodup := List.nodup_nil } },
      { name := longName 0x63 (by decide), labels := { blocks_nodup := List.nodup_nil } }]
  count_lt := by decide

theorem longNames_not_symbolsApart : ¬ SymbolsApart longNames := by
  intro apart
  have names := (longNames.nodup_symbols_iff.mp apart.apart).names
  revert names
  decide

end LongNames

end Saad
