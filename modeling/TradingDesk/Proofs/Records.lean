import Mathlib.Data.List.Nodup
import TradingDesk.Document.Fields
/- Proofs.Records — the fields of a record are found wherever they stand.

   A record is written as an object with its fields in their order. A reader looks each
   field up by its name. So it finds the same fields in every object that lists them, in
   any order and with entries under other names between them (`Document.Lists.finds`),
   and what it makes of a field depends on that field alone: on its value if it is there,
   and else on its default (`Finds.required`, `Finds.defaulted`, `Finds.optional`). -/
namespace TradingDesk

/-- Under names that differ, to look one up is to ask for membership. -/
theorem lookup_eq_some_iff_mem {β : Type} {fields : List (String × β)}
    (hnames : (fields.map Prod.fst).Nodup) {name : String} {b : β} :
    fields.lookup name = some b ↔ (name, b) ∈ fields := by
  induction fields with
  | nil => simp
  | cons f fields ih =>
    obtain ⟨key, d⟩ := f
    rw [List.map_cons, List.nodup_cons] at hnames
    rw [List.lookup_cons, List.mem_cons, Prod.mk.injEq]
    cases hkey : name == key with
    | true =>
      have hkey : name = key := eq_of_beq hkey
      have habsent : (name, b) ∉ fields := fun hmem =>
        hnames.1 (List.mem_map.mpr ⟨(name, b), hmem, hkey⟩)
      simp only [hkey, true_and, Option.some.injEq]
      exact ⟨fun h => .inl h.symm, fun h => (h.resolve_right (hkey ▸ habsent)).symm⟩
    | false =>
      have hkey : name ≠ key := ne_of_beq_false hkey
      simp [hkey, ih hnames.2]

namespace Fields

variable {β : Type} {f : Fields} {name : String} {read : Document → Option β} {b default : β}

/-! ## What a field was read from -/

theorem of_required {P : β → Prop} (h : f.required name read = some b)
    (hread : ∀ {d b}, read d = some b → P b) : P b := by
  obtain ⟨d, -, hd⟩ := Option.bind_eq_some_iff.mp h
  exact hread hd

theorem of_defaulted {P : β → Prop} (h : f.defaulted name default read = some b)
    (hdefault : P default) (hread : ∀ {d b}, read d = some b → P b) : P b := by
  unfold defaulted at h
  split at h
  · exact hread h
  · cases h
    exact hdefault

/-! ## What is made of a field -/

/-- The fields found are those given, but for some that stand for their defaults. -/
structure Finds (f : Fields) (fields defaults : List (String × Document)) : Prop where
  byName : f.positional = false
  mem_of_lookup : ∀ {name d}, f.values.lookup name = some d → (name, d) ∈ fields
  lookup_or_default : ∀ {name d}, (name, d) ∈ fields →
    f.values.lookup name = some d ∨ f.values.lookup name = none ∧ (name, d) ∈ defaults

namespace Finds

variable {fields defaults : List (String × Document)} {d : Document}

theorem lookup (h : f.Finds fields defaults) (hmem : (name, d) ∈ fields)
    (hdefault : (name, d) ∉ defaults) : f.values.lookup name = some d :=
  (h.lookup_or_default hmem).resolve_right fun hnone => hdefault hnone.2

theorem required (h : f.Finds fields defaults) (hmem : (name, d) ∈ fields)
    (hdefault : (name, d) ∉ defaults) (read : Document → Option β) :
    f.required name read = read d := by
  rw [Fields.required, h.lookup hmem hdefault, Option.bind_some]

theorem optional (h : f.Finds fields defaults) (hmem : (name, d) ∈ fields)
    (hdefault : (name, d) ∉ defaults) (read : Document → Option β) :
    f.optional name read = d.option? read := by
  rw [Fields.optional, h.lookup hmem hdefault]

theorem defaulted (h : f.Finds fields defaults) (hmem : (name, d) ∈ fields)
    (hdefault : (name, d) ∈ defaults → read d = some default) :
    f.defaulted name default read = read d := by
  unfold Fields.defaulted
  rcases h.lookup_or_default hmem with hlookup | ⟨hlookup, hmem⟩
  · rw [hlookup]
  · rw [hlookup, hdefault hmem]

theorem defaulted_of_not_mem (h : f.Finds fields defaults) (hmem : ∀ d, (name, d) ∉ fields) :
    f.defaulted name default read = some default := by
  unfold Fields.defaulted
  cases hlookup : f.values.lookup name with
  | none => rfl
  | some d => exact absurd (h.mem_of_lookup hlookup) (hmem d)

end Finds

/-! ## What is found in an object -/

/-- The entries of an object that are fields. -/
def known (names : List String) (listed : List (String × Document)) : List (String × Document) :=
  listed.filter fun e => names.contains e.1

theorem named_record {names : List String} {listed : List (String × Document)}
    (hnames : ((known names listed).map Prod.fst).Nodup) :
    named names (listed.map fun e => (some e.1, e.2)) = some (known names listed) := by
  induction listed with
  | nil => rfl
  | cons e listed ih =>
    obtain ⟨key, d⟩ := e
    unfold known at hnames ⊢
    rw [List.filter_cons] at hnames ⊢
    by_cases hkey : names.contains key = true
    · rw [if_pos hkey, List.map_cons, List.nodup_cons] at hnames
      have honce : ¬ ((known names listed).any (·.1 == key)) = true := by
        rw [List.any_eq_true]
        rintro ⟨e, hmem, he⟩
        exact hnames.1 (List.mem_map.mpr ⟨e, hmem, eq_of_beq he⟩)
      rw [if_pos hkey, List.map_cons, named, ih hnames.2]
      dsimp only
      rw [if_pos hkey, if_neg honce]
      rfl
    · rw [if_neg hkey] at hnames ⊢
      rw [List.map_cons, named, ih hnames]
      dsimp only
      rw [if_neg hkey]
      rfl

theorem of?_record {names : List String} {listed : List (String × Document)}
    (hnames : ((known names listed).map Prod.fst).Nodup) :
    of? names (.record listed) = some ⟨false, known names listed⟩ := by
  show (named names (listed.map fun e => (some e.1, e.2))).map (Fields.mk false) = _
  rw [named_record hnames, Option.map_some]

end Fields

/-! ## Objects that list a record -/

/-- Entries that list the fields of a record in any order. Fields that stand for their defaults
may be missing, and there may be other entries of a sort. -/
def Fields.AreListed (fields defaults : List (String × Document))
    (others : String × Document → Prop) (listed : List (String × Document)) : Prop :=
  ∃ kept rest, listed.Perm (kept ++ rest) ∧ kept.Sublist fields ∧
    (∀ e ∈ fields, e ∈ kept ∨ e ∈ defaults) ∧ ∀ e ∈ rest, others e

/-- A document that lists the fields of a record. -/
def Document.Lists (fields defaults : List (String × Document))
    (others : String × Document → Prop) (d : Document) : Prop :=
  ∃ listed, d = .record listed ∧ Fields.AreListed fields defaults others listed

variable {fields defaults : List (String × Document)} {others : String × Document → Prop}

namespace Fields.AreListed

variable {listed : List (String × Document)}

theorem self : AreListed fields defaults others fields :=
  ⟨fields, [], by rw [List.append_nil], List.Sublist.refl _, fun _ h => .inl h,
    List.forall_mem_nil _⟩

/-- What holds of all fields and of all other entries holds of all entries. -/
theorem forall_mem {P : String × Document → Prop} (h : AreListed fields defaults others listed)
    (hfields : ∀ e ∈ fields, P e) (hothers : ∀ e, others e → P e) : ∀ e ∈ listed, P e := by
  obtain ⟨kept, rest, hperm, hsub, -, hrest⟩ := h
  intro e he
  rcases List.mem_append.mp (hperm.mem_iff.mp he) with hmem | hmem
  · exact hfields e (hsub.subset hmem)
  · exact hothers e (hrest e hmem)

/-- A field that has to be there can be taken out. -/
theorem take_out {f : String × Document} (h : AreListed (f :: fields) defaults others listed)
    (hfields : f ∉ fields) (hdefaults : f ∉ defaults) :
    ∃ before after, listed = before ++ f :: after ∧
      AreListed fields defaults others (before ++ after) := by
  obtain ⟨kept, rest, hperm, hsub, hkept, hrest⟩ := h
  have hmem : f ∈ kept := (hkept f List.mem_cons_self).resolve_right hdefaults
  obtain ⟨kept', rfl, hsub'⟩ : ∃ kept', kept = f :: kept' ∧ kept'.Sublist fields := by
    cases hsub with
    | cons _ hsub => exact absurd (hsub.subset hmem) hfields
    | cons_cons _ hsub => exact ⟨_, rfl, hsub⟩
  obtain ⟨before, after, rfl⟩ := List.append_of_mem
    (hperm.mem_iff.mpr (List.mem_append_left rest hmem))
  refine ⟨before, after, rfl, kept', rest, ?_, hsub', fun e he => ?_, hrest⟩
  · exact (List.perm_middle.symm.trans hperm).cons_inv
  · rcases hkept e (List.mem_cons_of_mem f he) with hmem | hmem
    · exact .inl ((List.mem_cons.mp hmem).resolve_left fun heq => hfields (heq ▸ he))
    · exact .inr hmem

end Fields.AreListed

namespace Document

variable {d : Document}

theorem lists_record : (record fields).Lists fields defaults others := ⟨fields, rfl, .self⟩

theorem Lists.finds (h : d.Lists fields defaults others) (names : List String)
    (hnodup : (fields.map Prod.fst).Nodup) (hnames : ∀ e ∈ fields, e.1 ∈ names)
    (hothers : ∀ e, others e → e.1 ∉ names) :
    ∃ f, Fields.of? names d = some f ∧ f.Finds fields defaults := by
  obtain ⟨listed, rfl, kept, rest, hperm, hsub, hkept, hrest⟩ := h
  have hknown : (Fields.known names listed).Perm kept := by
    have hkeep : Fields.known names kept = kept :=
      List.filter_eq_self.mpr fun e he => List.contains_iff_mem.mpr (hnames e (hsub.subset he))
    have hdrop : Fields.known names rest = [] :=
      List.filter_eq_nil_iff.mpr fun e he hmem =>
        hothers e (hrest e he) (List.contains_iff_mem.mp hmem)
    have h := hperm.filter fun e => names.contains e.1
    rwa [List.filter_append, ← Fields.known, ← Fields.known, ← Fields.known, hkeep, hdrop,
      List.append_nil] at h
  have hkeptNodup : (kept.map Prod.fst).Nodup := hnodup.sublist (hsub.map _)
  have hknownNodup : ((Fields.known names listed).map Prod.fst).Nodup :=
    (hknown.map Prod.fst).nodup_iff.mpr hkeptNodup
  have hlookup : ∀ {name d}, (Fields.known names listed).lookup name = some d ↔ (name, d) ∈ kept :=
    fun {name d} => (lookup_eq_some_iff_mem hknownNodup).trans hknown.mem_iff
  refine ⟨⟨false, Fields.known names listed⟩, Fields.of?_record hknownNodup, rfl,
    fun h => hsub.subset (hlookup.mp h), fun {name d} hmem => ?_⟩
  cases hfound : (Fields.known names listed).lookup name with
  | none =>
    rcases hkept _ hmem with hmem | hmem
    · rw [hlookup.mpr hmem] at hfound
      cases hfound
    · exact .inr ⟨rfl, hmem⟩
  | some found =>
    -- no other field has the name
    have hfound := lookup_eq_some_iff_mem hnodup |>.mpr (hsub.subset (hlookup.mp hfound))
    rw [lookup_eq_some_iff_mem hnodup |>.mpr hmem] at hfound
    exact .inl hfound.symm

end Document

end TradingDesk
