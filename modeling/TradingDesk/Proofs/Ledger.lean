import TradingDesk.Ledger
import TradingDesk.Proofs.Table
/- Proofs.Ledger — what each operation of a ledger does to one id.

   Every operation that succeeds files one order anew under one id and says
   whether that id is pending; all other ids read as before. `Refiled` states
   this once, and one lemma for each operation says which order it files. -/
namespace TradingDesk

variable {α : Type}

namespace Order

/-- The order with an event booked on it. -/
def booked [Scalar α] (o : Order α) (e : OrderEvent α) : Order α :=
  { o with status := e.status, filled := o.filled + e.fillQuantity }

/-- The order with another kind. -/
def withKind (o : Order α) (kind : OrderKind α) : Order α := { o with kind := kind }

theorem addBrokerId_id (o : Order α) (brokerId : String) : (o.addBrokerId brokerId).id = o.id := by
  unfold addBrokerId; split <;> rfl

theorem addBrokerId_status (o : Order α) (brokerId : String) :
    (o.addBrokerId brokerId).status = o.status := by
  unfold addBrokerId; split <;> rfl

theorem addBrokerId_filled (o : Order α) (brokerId : String) :
    (o.addBrokerId brokerId).filled = o.filled := by
  unfold addBrokerId; split <;> rfl

theorem addBrokerId_quantity (o : Order α) (brokerId : String) :
    (o.addBrokerId brokerId).quantity = o.quantity := by
  unfold addBrokerId; split <;> rfl

theorem addBrokerId_symbol (o : Order α) (brokerId : String) :
    (o.addBrokerId brokerId).symbol = o.symbol := by
  unfold addBrokerId; split <;> rfl

theorem addBrokerId_kind (o : Order α) (brokerId : String) :
    (o.addBrokerId brokerId).kind = o.kind := by
  unfold addBrokerId; split <;> rfl

theorem addBrokerId_time (o : Order α) (brokerId : String) :
    (o.addBrokerId brokerId).time = o.time := by
  unfold addBrokerId; split <;> rfl

/-- What broker identifiers leave alone, any number of them leaves alone. -/
theorem foldl_addBrokerId {β : Type} {field : Order α → β}
    (hf : ∀ o brokerId, field (o.addBrokerId brokerId) = field o) (ids : List String)
    (o : Order α) : field (ids.foldl addBrokerId o) = field o := by
  induction ids generalizing o with
  | nil => rfl
  | cons brokerId ids ih => rw [List.foldl_cons, ih, hf]

theorem applyUpdate_id (o update : Order α) : (o.applyUpdate update).id = o.id :=
  foldl_addBrokerId addBrokerId_id _ _

theorem applyUpdate_status (o update : Order α) : (o.applyUpdate update).status = o.status :=
  foldl_addBrokerId addBrokerId_status _ _

theorem applyUpdate_filled (o update : Order α) : (o.applyUpdate update).filled = o.filled :=
  foldl_addBrokerId addBrokerId_filled _ _

theorem applyUpdate_quantity (o update : Order α) :
    (o.applyUpdate update).quantity = update.quantity :=
  foldl_addBrokerId addBrokerId_quantity _ _

theorem applyUpdate_symbol (o update : Order α) : (o.applyUpdate update).symbol = o.symbol :=
  foldl_addBrokerId addBrokerId_symbol _ _

theorem applyUpdate_kind (o update : Order α) :
    (o.applyUpdate update).kind = update.kind.trigger o.kind.isTriggered :=
  foldl_addBrokerId addBrokerId_kind _ _

theorem applyUpdate_time (o update : Order α) : (o.applyUpdate update).time = o.time :=
  foldl_addBrokerId addBrokerId_time _ _

end Order

namespace Ledger

/-- Every order is stored under its own id. -/
def WellFiled (l : Ledger α) : Prop := ∀ id order, l.get? id = some order → order.id = id

/-- Every pending id has an order. -/
def Backed (l : Ledger α) : Prop := ∀ id, l.isPending id = true → (l.get? id).isSome = true

/-- `l'` reads as `l`, except that `order` is stored under `id` and that `pending` says whether
`id` is pending. -/
structure Refiled (l l' : Ledger α) (id : OrderId) (order : Order α) (pending : Bool) : Prop where
  get? : ∀ j, l'.get? j = if j = id then some order else l.get? j
  isPending : ∀ j, l'.isPending j = if j = id then pending else l.isPending j

namespace Refiled
variable {l l' : Ledger α} {id j : OrderId} {order : Order α} {pending : Bool}

theorem get?_self (h : Refiled l l' id order pending) : l'.get? id = some order := by
  rw [h.get?, if_pos rfl]

theorem isPending_self (h : Refiled l l' id order pending) : l'.isPending id = pending := by
  rw [h.isPending, if_pos rfl]

theorem get?_of_ne (h : Refiled l l' id order pending) (hj : j ≠ id) : l'.get? j = l.get? j := by
  rw [h.get?, if_neg hj]

theorem isPending_of_ne (h : Refiled l l' id order pending) (hj : j ≠ id) :
    l'.isPending j = l.isPending j := by
  rw [h.isPending, if_neg hj]

theorem wellFiled (h : Refiled l l' id order pending) (hl : l.WellFiled) (ho : order.id = id) :
    l'.WellFiled := by
  intro j o hj
  rw [h.get?] at hj
  split at hj
  · next e => rw [e, ← Option.some.inj hj, ho]
  · exact hl j o hj

theorem backed (h : Refiled l l' id order pending) (hb : l.Backed) : l'.Backed := by
  intro j hj
  rw [h.get?]
  rw [h.isPending] at hj
  split
  · rfl
  · next hne =>
    rw [if_neg hne] at hj
    exact hb j hj

/-- Of two filings under one id, the second stands. -/
theorem trans {l'' : Ledger α} {order' : Order α} {pending' : Bool}
    (h : Refiled l l' id order pending) (h' : Refiled l' l'' id order' pending') :
    Refiled l l'' id order' pending' := by
  refine ⟨fun j => ?_, fun j => ?_⟩
  · rw [h'.get?, h.get?]; split <;> rfl
  · rw [h'.isPending, h.isPending]; split <;> rfl

end Refiled

/-! ## Reading after an insertion or a removal -/

theorem orders_insert (t : Table OrderId (Order α)) (id j : OrderId) (order : Order α) :
    (t.insert id order).get? j = if j = id then some order else t.get? j := by
  split
  · next e => rw [e, Table.get?_insert_self]
  · next hj => rw [Table.get?_insert_of_ne _ _ hj]

theorem pending_insert (t : Table OrderId Unit) (id j : OrderId) :
    (t.insert id ()).contains j = if j = id then true else t.contains j := by
  split
  · next e => rw [Table.contains, e, Table.get?_insert_self]; rfl
  · next hj => rw [Table.contains, Table.contains, Table.get?_insert_of_ne _ _ hj]

theorem pending_erase (t : Table OrderId Unit) (id j : OrderId) :
    (t.erase id).contains j = if j = id then false else t.contains j := by
  split
  · next e => rw [Table.contains, e, Table.get?_erase_self]; rfl
  · next hj => rw [Table.contains, Table.contains, Table.get?_erase_of_ne _ hj]

theorem isPending_dropPending (l : Ledger α) (id j : OrderId) :
    (l.dropPending id).isPending j = if j = id then false else l.isPending j :=
  pending_erase l.pending id j

theorem mem_pendingIds {l : Ledger α} {id : OrderId} :
    id ∈ l.pendingIds ↔ l.isPending id = true :=
  Table.mem_keys_iff

theorem pendingIds_nodup (l : Ledger α) : l.pendingIds.Nodup := l.pending.keys_nodup

theorem hasPending_iff {l : Ledger α} : l.hasPending = true ↔ ∃ id, l.isPending id = true := by
  rw [hasPending, Bool.not_eq_true', ← Bool.not_eq_true, Table.isEmpty_iff]
  simp [isPending]

theorem pendingOrder?_eq_some {l : Ledger α} {id : OrderId} {order : Order α} :
    l.pendingOrder? id = some order ↔ l.isPending id = true ∧ l.get? id = some order := by
  unfold pendingOrder?
  split
  · next h => simp [h]
  · next h => simp [h]

/-- Filing an order leaves the pending set alone. -/
theorem file_refiled (l : Ledger α) (id : OrderId) (order : Order α) :
    Refiled l { l with orders := l.orders.insert id order } id order (l.isPending id) := by
  refine ⟨fun j => orders_insert _ _ j _, fun j => ?_⟩
  split
  · next hj => rw [hj]; rfl
  · rfl

/-- Dropping the id that was filed leaves its order filed. -/
theorem Refiled.dropPending {l l' : Ledger α} {id : OrderId} {order : Order α} {pending : Bool}
    (h : Refiled l l' id order pending) : Refiled l (l'.dropPending id) id order false := by
  refine ⟨h.get?, fun j => ?_⟩
  rw [isPending_dropPending, h.isPending]
  split <;> rfl

/-- Ledgers that read alike are one. -/
theorem ext_reads {l l' : Ledger α} (hs : ∀ id, l.get? id = l'.get? id)
    (hp : ∀ id, l.isPending id = l'.isPending id) : l = l' := by
  have horders : l.orders = l'.orders := Table.ext_get? hs
  have hpending : l.pending = l'.pending := by
    apply Table.ext_get?
    intro id
    have h : (l.pending.get? id).isSome = (l'.pending.get? id).isSome := hp id
    cases hl : l.pending.get? id <;> cases hl' : l'.pending.get? id <;> simp_all
  obtain ⟨_, _⟩ := l
  obtain ⟨_, _⟩ := l'
  cases horders
  cases hpending
  rfl

/-- Dropping an id that is not pending changes nothing. -/
theorem dropPending_of_not_isPending {l : Ledger α} {id : OrderId} (h : l.isPending id = false) :
    l.dropPending id = l := by
  refine ext_reads (fun j => rfl) fun j => ?_
  rw [isPending_dropPending]
  split
  · next hj => rw [hj, h]
  · rfl

namespace Refiled

variable {l l₁ l₂ : Ledger α} {i j : OrderId} {order order' : Order α} {pending pending' : Bool}

/-- Filing one order in one way gives one ledger. -/
theorem unique (h₁ : Refiled l l₁ i order pending) (h₂ : Refiled l l₂ i order pending) : l₁ = l₂ :=
  ext_reads (fun k => (h₁.get? k).trans (h₂.get? k).symm)
    fun k => (h₁.isPending k).trans (h₂.isPending k).symm

/-- Filing what is filed changes nothing. -/
theorem eq_self (h : Refiled l l₁ i order pending) (hs : l.get? i = some order)
    (hp : l.isPending i = pending) : l₁ = l := by
  refine h.unique ⟨fun k => ?_, fun k => ?_⟩
  · split
    · next hk => rw [hk, hs]
    · rfl
  · split
    · next hk => rw [hk, hp]
    · rfl

/-- Filings under different ids can be made in either order. -/
theorem swap {l₁₂ l₂₁ : Ledger α} (hij : i ≠ j) (h₁ : Refiled l l₁ i order pending)
    (h₁₂ : Refiled l₁ l₁₂ j order' pending') (h₂ : Refiled l l₂ j order' pending')
    (h₂₁ : Refiled l₂ l₂₁ i order pending) : l₁₂ = l₂₁ := by
  have hnot : ∀ k, k = i → k ≠ j := fun k hi hj => hij (hi.symm.trans hj)
  refine ext_reads (fun k => ?_) fun k => ?_
  · rw [h₁₂.get?, h₁.get?, h₂₁.get?, h₂.get?]
    by_cases hk : k = i
    · rw [if_neg (hnot k hk), if_pos hk, if_pos hk]
    · rw [if_neg hk, if_neg hk]
  · rw [h₁₂.isPending, h₁.isPending, h₂₁.isPending, h₂.isPending]
    by_cases hk : k = i
    · rw [if_neg (hnot k hk), if_pos hk, if_pos hk]
    · rw [if_neg hk, if_neg hk]

end Refiled

/-! ## The operations -/

/-- A new order under a free id is filed as submitted and pending. -/
theorem place?_refiled {l : Ledger α} {order : Order α} (hs : order.status = .new)
    (hn : l.get? order.id = none) :
    ∃ l', l.place? order = some l' ∧
      Refiled l l' order.id { order with status := .submitted } true :=
  ⟨_, if_pos ⟨hs, hn⟩, fun j => orders_insert _ _ j _, fun j => pending_insert _ _ j⟩

/-- An update files the pending order with the update applied. -/
theorem update?_refiled {l : Ledger α} {update stored : Order α}
    (h : l.pendingOrder? update.id = some stored) :
    ∃ l', l.update? update = some (l', stored.applyUpdate update) ∧
      Refiled l l' update.id (stored.applyUpdate update) true := by
  refine ⟨_, by rw [update?, h]; rfl, ?_⟩
  rw [← (pendingOrder?_eq_some.mp h).1]
  exact file_refiled l update.id _

/-- A cancel files the pending order as canceled and no longer pending. -/
theorem cancel?_refiled {l l' : Ledger α} {id : OrderId} {order : Order α}
    (h : l.cancel? id = some (l', order)) :
    ∃ stored, l.pendingOrder? id = some stored ∧ order = { stored with status := .canceled } ∧
      Refiled l l' id order false := by
  obtain ⟨stored, hs, he⟩ := Option.map_eq_some_iff.mp h
  obtain ⟨rfl, rfl⟩ := Prod.mk.inj he
  exact ⟨stored, hs, rfl, (file_refiled l id _).dropPending⟩

/-- Another kind is filed with the stored order. -/
theorem setKind_refiled {l : Ledger α} {id : OrderId} {order : Order α} (kind : OrderKind α)
    (h : l.get? id = some order) :
    Refiled l (l.setKind id kind) id (order.withKind kind) (l.isPending id) := by
  refine ⟨fun j => ?_, fun j => ?_⟩
  · split
    · next e =>
      rw [e, setKind, get?, Table.get?_adjust_self]
      exact congrArg (Option.map _) h
    · next hj => exact Table.get?_adjust_of_ne _ _ hj
  · split
    · next e => rw [e]; rfl
    · rfl

theorem setKind_self {l : Ledger α} {id : OrderId} {order : Order α}
    (h : l.get? id = some order) : l.setKind id order.kind = l := by
  rw [setKind, Table.adjust_eq_self h rfl]

section Booking
variable [Scalar α] {l l' : Ledger α} {e : OrderEvent α}

/-- Booking succeeds on a stored order whose status may be followed by the event's. It files the
order with the event booked, and ends its being pending if the event is terminal. -/
theorem record?_of_allows {stored : Order α} (hs : l.get? e.orderId = some stored)
    (ha : stored.status.allows e.status = true) :
    ∃ l', l.record? e = some l' ∧
      Refiled l l' e.orderId (stored.booked e)
        (l.isPending e.orderId && !e.status.isTerminal) := by
  have hf := file_refiled l e.orderId (stored.booked e)
  refine ⟨_, by rw [record?, hs]; exact if_pos ha, ?_⟩
  cases e.status.isTerminal with
  | false => rw [Bool.not_false, Bool.and_true]; exact hf
  | true => rw [Bool.not_true, Bool.and_false]; exact hf.dropPending

/-- Nothing else is booked. -/
theorem record?_refiled (h : l.record? e = some l') :
    ∃ stored, l.get? e.orderId = some stored ∧ stored.status.allows e.status = true ∧
      Refiled l l' e.orderId (stored.booked e)
        (l.isPending e.orderId && !e.status.isTerminal) := by
  cases hs : l.get? e.orderId with
  | none => simp [record?, hs] at h
  | some stored =>
    by_cases ha : stored.status.allows e.status = true
    · obtain ⟨l₁, h₁, hr⟩ := record?_of_allows hs ha
      obtain rfl := Option.some.inj (h₁.symm.trans h)
      exact ⟨stored, rfl, ha, hr⟩
    · simp [record?, hs, ha] at h

/-- An event that is booked on the order whose kind it came with files the order with both. -/
theorem setKind_record?_refiled {id : OrderId} {order : Order α} {kind : OrderKind α}
    (hs : l.get? id = some order) (he : e.orderId = id)
    (h : (l.setKind id kind).record? e = some l') :
    Refiled l l' id ((order.withKind kind).booked e) (l.isPending id && !e.status.isTerminal) := by
  have hk := setKind_refiled kind hs
  obtain ⟨stored, hs', -, hr⟩ := record?_refiled h
  rw [he] at hs' hr
  obtain rfl : order.withKind kind = stored := Option.some.inj (hk.get?_self.symm.trans hs')
  rw [hk.isPending_self] at hr
  exact hk.trans hr

end Booking

end Ledger

end TradingDesk
