import TradingDesk.Table
/- Proofs.Table — what a table answers after it was changed.

   A record is read back under its key and no other. Filing needs no order of
   the entries for that; reading a member back does, since only ascending keys
   make the first entry of a key the only one. -/
namespace TradingDesk.Table

variable {κ υ : Type} [Ord κ]

theorem ext {t u : Table κ υ} (h : t.entries = u.entries) : t = u := by
  cases t; cases u; cases h; rfl

/-! ## Reading one key -/

/-- Adjusting an entry leaves its key alone. -/
theorem key_adjusted (k j : κ) (f : υ → υ) :
    ((fun e : κ × υ => compare e.1 j == .eq) ∘
      fun e => if compare e.1 k == .eq then (e.1, f e.2) else e) =
      fun e => compare e.1 j == .eq := by
  funext e
  simp only [Function.comp_apply]
  split <;> rfl

theorem get?_adjust_self (t : Table κ υ) (k : κ) (f : υ → υ) :
    (t.adjust k f).get? k = (t.get? k).map f := by
  rw [get?, get?, adjust, List.find?_map, Option.map_map, Option.map_map, key_adjusted]
  refine Option.map_congr fun e he => ?_
  have hk : (compare e.1 k == .eq) = true :=
    List.find?_some (p := fun e : κ × υ => compare e.1 k == .eq) he
  simp only [Function.comp_apply, hk, if_true]

theorem keys_ascending (t : Table κ υ) : t.keys.Pairwise fun a b => compare a b = .lt :=
  List.pairwise_map.mpr t.ascending

section Reading
variable [Std.LawfulEqOrd κ]

theorem key_of_find? {entries : List (κ × υ)} {k : κ} {e : κ × υ}
    (h : (entries.find? fun e => compare e.1 k == .eq) = some e) : e.1 = k := by
  have hk := List.find?_some (p := fun e : κ × υ => compare e.1 k == .eq) h
  rwa [beq_iff_eq, Std.compare_eq_iff_eq] at hk

theorem mem_of_get? {t : Table κ υ} {k : κ} {v : υ} (h : t.get? k = some v) :
    (k, v) ∈ t.entries := by
  obtain ⟨e, he, rfl⟩ := Option.map_eq_some_iff.mp h
  obtain rfl := key_of_find? he
  exact List.mem_of_find?_eq_some he

theorem get?_erase_self (t : Table κ υ) (k : κ) : (t.erase k).get? k = none := by
  rw [get?, Option.map_eq_none_iff, List.find?_eq_none]
  intro e he
  have hne := (List.mem_filter.mp he).2
  simpa using hne

theorem get?_erase_of_ne (t : Table κ υ) {k j : κ} (h : j ≠ k) :
    (t.erase k).get? j = t.get? j := by
  rw [get?, get?, erase, List.find?_filter]
  congr 2
  funext e
  by_cases hj : e.1 = j
  · have hk : compare e.1 k ≠ .eq := fun hk => h (hj ▸ Std.LawfulEqOrd.eq_of_compare hk)
    simp [hk]
  · simp [hj]

theorem get?_adjust_of_ne (t : Table κ υ) {k j : κ} (f : υ → υ) (h : j ≠ k) :
    (t.adjust k f).get? j = t.get? j := by
  rw [get?, get?, adjust, List.find?_map, Option.map_map, key_adjusted]
  refine Option.map_congr fun e he => ?_
  have hk : ¬ e.1 = k := fun hk => h ((key_of_find? he).symm.trans hk)
  simp [hk]

/-- Ascending keys make a member the record of its key. -/
theorem get?_of_mem {t : Table κ υ} {k : κ} {v : υ} (h : (k, v) ∈ t.entries) :
    t.get? k = some v := by
  obtain ⟨entries, ascending⟩ := t
  suffices hf : entries.find? (fun e => compare e.1 k == .eq) = some (k, v) by
    simp [get?, hf]
  induction entries with
  | nil => simp at h
  | cons e rest ih =>
    rcases List.mem_cons.mp h with rfl | h
    · simp
    · have hlt : compare e.1 k = .lt := List.rel_of_pairwise_cons ascending h
      have hne : ¬ e.1 = k := fun hk => by simp [hk] at hlt
      simp [hne, ih ascending.of_cons h]

/-- Passing a record through a function that leaves it alone changes nothing. -/
theorem adjust_eq_self {t : Table κ υ} {k : κ} {v : υ} {f : υ → υ} (h : t.get? k = some v)
    (hf : f v = v) : t.adjust k f = t := by
  refine ext ((List.map_congr_left fun e he => ?_).trans (List.map_id _))
  by_cases hk : e.1 = k
  · subst hk
    have hv : e.2 = v := Option.some.inj ((get?_of_mem he).symm.trans h)
    simp only [Std.compare_self, beq_self_eq_true, if_true, hv, hf]
    rw [← hv]; rfl
  · simp [hk]

theorem keys_nodup (t : Table κ υ) : t.keys.Nodup :=
  t.keys_ascending.imp fun h he => by simp [he] at h

theorem mem_keys_iff {t : Table κ υ} {k : κ} : k ∈ t.keys ↔ t.contains k = true := by
  rw [contains, Option.isSome_iff_exists]
  constructor
  · intro h
    obtain ⟨e, he, rfl⟩ := List.mem_map.mp h
    exact ⟨e.2, get?_of_mem he⟩
  · rintro ⟨v, hv⟩
    exact List.mem_map.mpr ⟨(k, v), mem_of_get? hv, rfl⟩

theorem isEmpty_iff {t : Table κ υ} : t.isEmpty = true ↔ ∀ k, t.contains k = false := by
  have hkeys : t.isEmpty = true ↔ t.keys = [] := by
    rw [isEmpty, List.isEmpty_iff, keys, List.map_eq_nil_iff]
  rw [hkeys, List.eq_nil_iff_forall_not_mem]
  simp only [mem_keys_iff, Bool.not_eq_true]

end Reading

/-! ## Reading what was filed -/

section Filing
variable [Std.TransOrd κ] [Std.LawfulEqOrd κ]

theorem get?_insert_self (t : Table κ υ) (k : κ) (v : υ) : (t.insert k v).get? k = some v := by
  suffices h : (insertEntry k v t.entries).find? (fun e => compare e.1 k == .eq) = some (k, v) by
    simp [get?, insert, h]
  induction t.entries with
  | nil => simp [insertEntry]
  | cons e rest ih =>
    rw [insertEntry]
    split
    · simp
    · simp
    · next hc =>
      have hne : ¬ e.1 = k := fun hk => by simp [hk] at hc
      simp [hne, ih]

theorem get?_insert_of_ne (t : Table κ υ) {k j : κ} (v : υ) (h : j ≠ k) :
    (t.insert k v).get? j = t.get? j := by
  suffices hf : (insertEntry k v t.entries).find? (fun e => compare e.1 j == .eq) =
      t.entries.find? fun e => compare e.1 j == .eq by
    simp [get?, insert, hf]
  have hk : ¬ k = j := fun hk => h hk.symm
  induction t.entries with
  | nil => simp [insertEntry, hk]
  | cons e rest ih =>
    rw [insertEntry]
    split
    · simp [hk]
    · next hc =>
      have he : k = e.1 := Std.LawfulEqOrd.eq_of_compare hc
      simp [hk, ← he]
    · rw [List.find?_cons, List.find?_cons, ih]

/-- A table is what it answers. -/
theorem ext_get? {t u : Table κ υ} (h : ∀ k, t.get? k = u.get? k) : t = u := by
  have hmem : ∀ e : κ × υ, e ∈ t.entries ↔ e ∈ u.entries := by
    intro e
    constructor
    · intro he
      exact mem_of_get? ((h e.1).symm.trans (get?_of_mem he))
    · intro he
      exact mem_of_get? ((h e.1).trans (get?_of_mem he))
  have hnodup : ∀ w : Table κ υ, w.entries.Nodup := by
    intro w
    refine w.ascending.imp ?_
    rintro a b hab rfl
    simp at hab
  have hperm : t.entries.Perm u.entries :=
    (List.perm_ext_iff_of_nodup (hnodup t) (hnodup u)).mpr hmem
  -- two lists in ascending order with the same members are one list
  apply ext
  refine List.Perm.eq_of_pairwise (fun a b _ _ hab hba => ?_) t.ascending u.ascending hperm
  rw [← Std.OrientedCmp.gt_iff_lt, hab] at hba
  cases hba

end Filing

end TradingDesk.Table
