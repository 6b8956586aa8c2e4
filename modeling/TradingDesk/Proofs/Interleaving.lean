import Mathlib.Data.List.Perm.Basic
/- Proofs.Interleaving — one list of steps in two orders.

   Two lists are interleavings of the same sequences if, for every key, they have the
   same members with that key, in the same order. Where steps with different keys may
   change places and nothing is left to see of it, folding over either list leads to the
   same (`Commuting.foldl_interleaves`): the first step of one list stands in the other
   behind steps with other keys only, and can be moved past them to the front.

   What may be seen is a relation, not equality: a log of all steps does depend on their
   order, and the relation says what of it does not. -/
namespace TradingDesk

variable {ι κ τ : Type}

/-! ## The members of one key -/

section Keys
variable [DecidableEq κ] {key : ι → κ} {k : κ} {i : ι} {l l' : List ι}

/-- The members of a list that have a key. -/
def ofKey (key : ι → κ) (k : κ) (l : List ι) : List ι := l.filter fun i => key i = k

theorem mem_ofKey : i ∈ ofKey key k l ↔ i ∈ l ∧ key i = k := by
  rw [ofKey, List.mem_filter, decide_eq_true_iff]

theorem ofKey_cons_self : ofKey key (key i) (i :: l) = i :: ofKey key (key i) l :=
  List.filter_cons_of_pos (decide_eq_true rfl)

theorem ofKey_cons_of_ne (h : key i ≠ k) : ofKey key k (i :: l) = ofKey key k l :=
  List.filter_cons_of_neg fun hk => h (of_decide_eq_true hk)

theorem ofKey_append : ofKey key k (l ++ l') = ofKey key k l ++ ofKey key k l' :=
  List.filter_append _ _

theorem ofKey_eq_nil (h : ∀ i ∈ l, key i ≠ k) : ofKey key k l = [] :=
  List.filter_eq_nil_iff.mpr fun i hi hk => h i hi (of_decide_eq_true hk)

/-- Where a member comes first of its key, the members in front of it have other keys. -/
theorem ofKey_eq_cons {rest : List ι} (h : ofKey key (key i) l = i :: rest) :
    ∃ before after, l = before ++ i :: after ∧ (∀ j ∈ before, key j ≠ key i) ∧
      ofKey key (key i) after = rest := by
  obtain ⟨before, after, hl, hbefore, -, hafter⟩ := List.filter_eq_cons_iff.mp h
  exact ⟨before, after, hl, fun j hj hkey => hbefore j hj (decide_eq_true hkey), hafter⟩

/-! ## Interleavings -/

/-- The lists have the same members of every key, in the same order. -/
def Interleaves (key : ι → κ) (l l' : List ι) : Prop := ∀ k, ofKey key k l = ofKey key k l'

/-- Only the keys of the two lists need to be looked at. -/
theorem interleaves_iff :
    Interleaves key l l' ↔ ∀ i ∈ l ++ l', ofKey key (key i) l = ofKey key (key i) l' := by
  refine ⟨fun h i _ => h (key i), fun h k => ?_⟩
  by_cases hk : ∃ i ∈ l ++ l', key i = k
  · obtain ⟨i, hi, rfl⟩ := hk
    exact h i hi
  · have hnone : ∀ i ∈ l ++ l', key i ≠ k := fun i hi hkey => hk ⟨i, hi, hkey⟩
    rw [ofKey_eq_nil fun i hi => hnone i (List.mem_append_left _ hi),
      ofKey_eq_nil fun i hi => hnone i (List.mem_append_right _ hi)]

instance [DecidableEq ι] : Decidable (Interleaves key l l') :=
  decidable_of_iff _ interleaves_iff.symm

namespace Interleaves

theorem refl (l : List ι) : Interleaves key l l := fun _ => rfl

theorem trans {l'' : List ι} (h : Interleaves key l l') (h' : Interleaves key l' l'') :
    Interleaves key l l'' :=
  fun k => (h k).trans (h' k)

theorem append_right (h : Interleaves key l l') (m : List ι) :
    Interleaves key (l ++ m) (l' ++ m) := by
  intro k
  rw [ofKey_append, ofKey_append, h k]

/-- What has different keys can be appended in either order. -/
theorem append_swap (m : List ι) (h : ∀ i ∈ l, ∀ j ∈ l', key i ≠ key j) :
    Interleaves key (m ++ l ++ l') (m ++ l' ++ l) := by
  intro k
  rw [ofKey_append, ofKey_append, ofKey_append, ofKey_append]
  by_cases hk : ∃ i ∈ l, key i = k
  · obtain ⟨i, hi, rfl⟩ := hk
    rw [ofKey_eq_nil (l := l') fun j hj => (h i hi j hj).symm, List.append_nil, List.append_nil]
  · have hnone : ofKey key k l = [] := ofKey_eq_nil fun i hi hkey => hk ⟨i, hi, hkey⟩
    rw [hnone, List.append_nil, List.append_nil]

theorem eq_nil (h : Interleaves key [] l') : l' = [] := by
  rw [List.eq_nil_iff_forall_not_mem]
  intro i hi
  have hmem : i ∈ ofKey key (key i) l' := mem_ofKey.mpr ⟨hi, rfl⟩
  rw [← h (key i)] at hmem
  cases hmem

/-- The first member of one list stands in the other behind members with other keys only, and
without it the lists are interleavings again. -/
theorem uncons (h : Interleaves key (i :: l) l') :
    ∃ before after, l' = before ++ i :: after ∧ (∀ j ∈ before, key j ≠ key i) ∧
      Interleaves key l (before ++ after) := by
  obtain ⟨before, after, rfl, hbefore, hafter⟩ :=
    ofKey_eq_cons ((h (key i)).symm.trans ofKey_cons_self)
  refine ⟨before, after, rfl, hbefore, fun k => ?_⟩
  rw [ofKey_append]
  by_cases hk : key i = k
  · subst hk
    rw [ofKey_eq_nil hbefore, List.nil_append, hafter]
  · have hl := h k
    rwa [ofKey_cons_of_ne hk, ofKey_append, ofKey_cons_of_ne hk] at hl

/-- Interleavings have the same members. -/
theorem perm (h : Interleaves key l l') : l.Perm l' := by
  induction l generalizing l' with
  | nil => rw [h.eq_nil]
  | cons i l ih =>
    obtain ⟨before, after, rfl, -, hrest⟩ := h.uncons
    exact ((ih hrest).cons i).trans List.perm_middle.symm

/-- All orders of members with different keys are interleavings. -/
theorem of_perm (hperm : l.Perm l') (hkeys : (l.map key).Nodup) : Interleaves key l l' := by
  intro k
  have hdistinct : ∀ {m : List ι}, (m.map key).Nodup →
      (ofKey key k m).Pairwise fun i j => key i ≠ key j :=
    fun hm => (List.pairwise_map.mp hm).filter _
  refine List.Perm.eq_of_pairwise (fun i j hi hj hne _ => ?_) (hdistinct hkeys)
    (hdistinct ((hperm.map key).nodup_iff.mp hkeys)) (hperm.filter _)
  -- members of one key do not have different keys
  exact absurd ((mem_ofKey.mp hi).2.trans (mem_ofKey.mp hj).2.symm) hne

end Interleaves

end Keys

/-! ## Folding over interleavings -/

/-- Steps with different keys change places unseen from the states that `valid` allows: `same`
says of two states that there is nothing to tell them apart. -/
structure Commuting (key : ι → κ) (step : τ → ι → τ) (valid : τ → Prop) (same : τ → τ → Prop) :
    Prop where
  refl : ∀ s, same s s
  trans : ∀ s t u, same s t → same t u → same s u
  congr : ∀ s t i, same s t → same (step s i) (step t i)
  keeps : ∀ s i, valid s → valid (step s i)
  swap : ∀ s i j, valid s → key i ≠ key j → same (step (step s i) j) (step (step s j) i)

namespace Commuting

variable {key : ι → κ} {step : τ → ι → τ} {valid : τ → Prop} {same : τ → τ → Prop} {s t : τ}

theorem foldl (c : Commuting key step valid same) (h : same s t) (l : List ι) :
    same (l.foldl step s) (l.foldl step t) := by
  induction l generalizing s t with
  | nil => exact h
  | cons i l ih => exact ih (c.congr s t i h)

/-- A step can be made before the steps with other keys that stand in front of it. -/
theorem foldl_front (c : Commuting key step valid same) {i : ι} {before : List ι}
    (hbefore : ∀ j ∈ before, key j ≠ key i) (after : List ι) (hs : valid s) :
    same ((i :: (before ++ after)).foldl step s) ((before ++ i :: after).foldl step s) := by
  induction before generalizing s with
  | nil => exact c.refl _
  | cons j before ih =>
    have hj : key i ≠ key j := (hbefore j List.mem_cons_self).symm
    have hrest := ih (fun b hb => hbefore b (List.mem_cons_of_mem _ hb)) (c.keeps s j hs)
    exact c.trans _ _ _ (c.foldl (c.swap s i j hs hj) (before ++ after)) hrest

/-- Folding over interleavings of the same sequences leads to the same. -/
theorem foldl_interleaves [DecidableEq κ] (c : Commuting key step valid same) {l l' : List ι}
    (h : Interleaves key l l') (hs : valid s) : same (l.foldl step s) (l'.foldl step s) := by
  induction l generalizing s l' with
  | nil =>
    rw [h.eq_nil]
    exact c.refl _
  | cons i l ih =>
    obtain ⟨before, after, rfl, hbefore, hrest⟩ := h.uncons
    exact c.trans _ _ _ (ih hrest (c.keeps s i hs)) (c.foldl_front hbefore after hs)

end Commuting

end TradingDesk
