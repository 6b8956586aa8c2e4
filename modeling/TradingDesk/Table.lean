/- Table — records filed under keys.

   The ledger files orders under their ids, the account files positions under
   their symbols, the market board files snapshots. All three read their
   records back in ascending key order, so the order is part of the type: a
   table is a list of entries whose keys strictly ascend, and two tables with
   the same records are equal. -/
namespace TradingDesk

variable {κ υ : Type} [Ord κ]

/-- Whether the keys of a list of entries strictly ascend. -/
def Ascending (entries : List (κ × υ)) : Prop :=
  entries.Pairwise fun a b => compare a.1 b.1 = .lt

/-- Records filed under keys, one record a key, in ascending key order. -/
structure Table (κ υ : Type) [Ord κ] where
  entries : List (κ × υ)
  ascending : Ascending entries

namespace Table

/-- File `v` under `k`: the record that was there, if any, is replaced. -/
def insertEntry (k : κ) (v : υ) : List (κ × υ) → List (κ × υ)
  | [] => [(k, v)]
  | e :: rest =>
    match compare k e.1 with
    | .lt => (k, v) :: e :: rest
    | .eq => (k, v) :: rest
    | .gt => e :: insertEntry k v rest

/-- An entry of the list after filing is the filed one or an old one. -/
theorem mem_insertEntry {k : κ} {v : υ} {e : κ × υ} {entries : List (κ × υ)}
    (h : e ∈ insertEntry k v entries) : e = (k, v) ∨ e ∈ entries := by
  induction entries with
  | nil => simpa [insertEntry] using h
  | cons d rest ih =>
    rw [insertEntry] at h
    split at h
    · rcases List.mem_cons.1 h with h | h
      · exact .inl h
      · exact .inr h
    · rcases List.mem_cons.1 h with h | h
      · exact .inl h
      · exact .inr (List.mem_cons_of_mem _ h)
    · rcases List.mem_cons.1 h with h | h
      · exact .inr (h ▸ List.mem_cons_self)
      · exact (ih h).imp id (List.mem_cons_of_mem _)

/-- Filing keeps the keys ascending. -/
theorem ascending_insertEntry [Std.TransOrd κ] [Std.LawfulEqOrd κ] (k : κ) (v : υ)
    {entries : List (κ × υ)} (h : Ascending entries) : Ascending (insertEntry k v entries) := by
  induction entries with
  | nil => simp [insertEntry, Ascending]
  | cons d rest ih =>
    have hd : ∀ e ∈ rest, compare d.1 e.1 = .lt := fun e he => List.rel_of_pairwise_cons h he
    have hr : Ascending rest := List.Pairwise.of_cons h
    rw [insertEntry]
    split
    · next hc =>
      refine List.Pairwise.cons (fun e he => ?_) h
      rcases List.mem_cons.1 he with rfl | he
      · exact hc
      · exact Std.TransCmp.lt_trans hc (hd e he)
    · next hc =>
      have hk : k = d.1 := Std.LawfulEqOrd.eq_of_compare hc
      exact List.Pairwise.cons (fun e he => hk ▸ hd e he) hr
    · next hc =>
      refine List.Pairwise.cons (fun e he => ?_) (ih hr)
      rcases mem_insertEntry he with rfl | he
      · exact Std.OrientedCmp.gt_iff_lt.1 hc
      · exact hd e he

def empty : Table κ υ := ⟨[], .nil⟩

instance : Inhabited (Table κ υ) := ⟨empty⟩

instance [DecidableEq κ] [DecidableEq υ] : DecidableEq (Table κ υ) := fun t u =>
  decidable_of_iff (t.entries = u.entries) (by cases t; cases u; simp)

/-- The record filed under `k`. -/
def get? (t : Table κ υ) (k : κ) : Option υ :=
  (t.entries.find? fun e => compare e.1 k == .eq).map Prod.snd

def contains (t : Table κ υ) (k : κ) : Bool := (t.get? k).isSome

/-- The table with `v` filed under `k`, in place of what was there. -/
def insert [Std.TransOrd κ] [Std.LawfulEqOrd κ] (t : Table κ υ) (k : κ) (v : υ) : Table κ υ :=
  ⟨insertEntry k v t.entries, ascending_insertEntry k v t.ascending⟩

/-- The table without the record under `k`. -/
def erase (t : Table κ υ) (k : κ) : Table κ υ :=
  ⟨t.entries.filter fun e => compare e.1 k != .eq, t.ascending.filter _⟩

/-- The table with the record under `k`, if there is one, passed through `f`. -/
def adjust (t : Table κ υ) (k : κ) (f : υ → υ) : Table κ υ :=
  ⟨t.entries.map fun e => if compare e.1 k == .eq then (e.1, f e.2) else e, by
    refine List.pairwise_map.2 (t.ascending.imp fun {a b} h => ?_)
    split <;> split <;> exact h⟩

/-- A table from a list of records: a later record replaces an earlier one of its key. -/
def ofList [Std.TransOrd κ] [Std.LawfulEqOrd κ] (records : List (κ × υ)) : Table κ υ :=
  records.foldl (fun t e => t.insert e.1 e.2) empty

def keys (t : Table κ υ) : List κ := t.entries.map Prod.fst

/-- The records, in ascending key order. -/
def values (t : Table κ υ) : List υ := t.entries.map Prod.snd

def size (t : Table κ υ) : Nat := t.entries.length

def isEmpty (t : Table κ υ) : Bool := t.entries.isEmpty

end Table

end TradingDesk
