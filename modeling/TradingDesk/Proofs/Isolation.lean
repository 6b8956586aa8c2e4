import TradingDesk.Proofs.Fault
import TradingDesk.Proofs.Position
import TradingDesk.Proofs.Run
import TradingDesk.Scalar.Floating
/- Proofs.Isolation — a model that faults harms only the order it was asked about.

   Two passes over one state are compared: one over the whole ledger, and one over
   the ledger without the orders whose models fault in the first. The passes go in
   lockstep (`Alike`): a look at an order that is spared does the same in both, and
   a look at a faulted order leaves the first pass alike to the second, because it
   touches nothing but that order. So the faulted orders are reported and closed,
   each once, and for all others the two passes agree (`pass_isolates_faults`).

   The models answer a call by the call and the account alone, and may know the
   account as it stands at each look (`AccountModels`). A pass with such models is
   `passUnder`, which is the pass itself where the models are fixed: models that know
   of the account only what the power check is told (`ToldByCheck`). For these the
   theorem is about the pass of a desk (`deskPass_isolates_faults`). -/
namespace TradingDesk

variable {α σ β : Type}

/-! ## Models that know the account -/

/-- The call, unless it faults. -/
def Trial.unless (t : Trial σ β) : Option Fault → Trial σ β
  | some fault => Trial.fail fault
  | none => t

/-- A fill model of which any call may fault instead of answering. -/
def FillModel.faulting (model : FillModel α σ)
    (fault? : Snapshot α → Order α → Instant → Option Fault) : FillModel α σ where
  market security order now := (model.market security order now).unless (fault? security order now)
  limit security order price now :=
    (model.limit security order price now).unless (fault? security order now)
  stopMarket security order stop now :=
    (model.stopMarket security order stop now).unless (fault? security order now)
  stopLimit security order now :=
    (model.stopLimit security order now).unless (fault? security order now)
  marketOnOpen security order now :=
    (model.marketOnOpen security order now).unless (fault? security order now)
  marketOnClose security order now :=
    (model.marketOnClose security order now).unless (fault? security order now)

theorem keepingKind_unless (order : Order α) (t : Trial σ (OrderEvent α)) (fault? : Option Fault) :
    keepingKind order (t.unless fault?) = (keepingKind order t).unless fault? := by
  cases fault? <;> rfl

theorem FillModel.faulting_dispatch (model : FillModel α σ)
    (fault? : Snapshot α → Order α → Instant → Option Fault) (security : Snapshot α)
    (order : Order α) (now : Instant) :
    (model.faulting fault?).dispatch security order now =
      (model.dispatch security order now).unless (fault? security order now) := by
  cases hk : order.kind with
  | stopLimit => simp only [dispatch, hk, faulting]
  | _ => simp only [dispatch, hk, faulting, keepingKind_unless]

variable [Scalar α]

/-- Models whose answer to a call, or fault, depends on the call and the account only. Fills follow
the built-in rules without a cap on a bar's volume, unless a call faults. -/
structure AccountModels (α : Type) [Scalar α] where
  executable : Portfolio α → Snapshot α → Order α → Bool
  afford : Portfolio α → Snapshot α → Order α → (fee : α) → Except Fault (PowerCheck α)
  schedule : Portfolio α → String → FeeSchedule
  charge : Portfolio α → String → Snapshot α → Order α → (price quantity : α) → Except Fault α
  rules : FillConfig α
  uncapped : rules.participation = none
  fillFault? : Portfolio α → Snapshot α → Order α → Instant → Option Fault

/-- The models as they answer while the account stands as given. -/
def AccountModels.suite (models : AccountModels α) (account : Portfolio α) :
    Models α (Usage α) where
  executable security order u := (models.executable account security order, u)
  afford account security order fee u := (models.afford account security order fee, u)
  fill := models.rules.fillModel.faulting (models.fillFault? account)
  fees symbol :=
    { schedule := models.schedule account symbol
      charge := fun security order price quantity u =>
        (models.charge account symbol security order price quantity, u) }

/-- Models, as the account stands, whose calls leave the memory alone and whose fills are about the
order asked about. -/
structure Separate (suite : Portfolio α → Models α σ) : Prop where
  own : ∀ account, (suite account).fill.KeepsToOrder
  leaves : ∀ account board order now memory,
    ((suite account).judge board account order now memory).2 = memory

/-- Without a cap the built-in rules remember nothing. -/
theorem FillConfig.dispatch_leaves {c : FillConfig α} (hc : c.participation = none)
    (security : Snapshot α) (order : Order α) (now : Instant) :
    (c.fillModel.dispatch security order now).Leaves id := by
  obtain ⟨price?, kind, hdispatch⟩ := dispatch_eq c security order now
  rw [hdispatch]
  refine Trial.Leaves.andThen ?_ fun event => .give (event, kind)
  intro u
  cases price? with
  | none => rfl
  | some price => simp only [fillIf, fillAt, fillQuantity, hc, id]

namespace AccountModels

variable (models : AccountModels α)

theorem leave (account : Portfolio α) : (models.suite account).Leave id where
  executable _ _ _ := rfl
  afford _ _ _ _ _ := rfl
  charge _ _ _ _ _ _ := rfl

theorem fill_leaves (account : Portfolio α) (security : Snapshot α) (order : Order α)
    (now : Instant) : ((models.suite account).fill.dispatch security order now).Leaves id := by
  show ((models.rules.fillModel.faulting _).dispatch security order now).Leaves id
  rw [FillModel.faulting_dispatch]
  cases models.fillFault? account security order now with
  | some fault => exact .fail fault
  | none => exact FillConfig.dispatch_leaves models.uncapped security order now

theorem followsRules (account : Portfolio α) :
    (models.suite account).fill.FollowsRules models.rules := by
  rintro security order now event kind ⟨u, u', h⟩
  have h : (models.rules.fillModel.faulting _).dispatch security order now u = _ := h
  rw [FillModel.faulting_dispatch] at h
  cases hf : models.fillFault? account security order now with
  | some fault =>
    rw [hf] at h
    cases h
  | none =>
    rw [hf] at h
    exact FillConfig.fillModel_answers ⟨u, u', h⟩

theorem separate : Separate models.suite where
  own account := (models.followsRules account).keepsToOrder
  leaves account board order now memory :=
    (models.leave account).judge (models.fill_leaves account) board account order now memory

end AccountModels

/-! ## Passes with models that know the account -/

namespace Floor

/-- Look at the orders of a list of ids in turn, each time with the models as they answer while the
account stands as it does then. Also whether any of them needs another look. -/
def visitUnder (suite : Portfolio α → Models α σ) (board : Board α) (now : Instant)
    (f : Floor α σ) : List OrderId → Floor α σ × Bool
  | [] => (f, false)
  | id :: ids =>
    let (f, needed) := f.visit (suite f.account) board now id
    let (f, again) := visitUnder suite board now f ids
    (f, needed || again)

/-- Look at every order that is pending, with models that know the account. -/
def passUnder (suite : Portfolio α → Models α σ) (board : Board α) (now : Instant)
    (f : Floor α σ) : Floor α σ × Bool :=
  f.visitUnder suite board now f.ledger.pendingIds

/-- The ids, in turn, at which a call faults, with that call's fault. -/
def faultsUnder (suite : Portfolio α → Models α σ) (board : Board α) (now : Instant)
    (f : Floor α σ) : List OrderId → List (OrderId × CallFault)
  | [] => []
  | id :: ids =>
    ((f.faultAt? (suite f.account) board now id).toList.map fun fault => (id, fault)) ++
      faultsUnder suite board now (f.visit (suite f.account) board now id).1 ids

/-- With fixed models the pass is the one that a desk makes. -/
theorem passUnder_const (models : Models α σ) (board : Board α) (now : Instant) (f : Floor α σ) :
    f.passUnder (fun _ => models) board now = f.pass models board now := by
  suffices h : ∀ ids f, visitUnder (fun _ => models) board now f ids =
      f.visitAll models board now ids from h _ f
  intro ids
  induction ids with
  | nil => intro f; rfl
  | cons id ids ih =>
    intro f
    rw [visitAll_cons, ← ih]
    rfl

section Passes

variable {suite : Portfolio α → Models α σ} {board : Board α} {now : Instant} {f : Floor α σ}
  {id : OrderId} {ids : List OrderId}

theorem visitUnder_cons (id : OrderId) (ids : List OrderId) :
    f.visitUnder suite board now (id :: ids) =
      (((f.visit (suite f.account) board now id).1.visitUnder suite board now ids).1,
        (f.visit (suite f.account) board now id).2 ||
          ((f.visit (suite f.account) board now id).1.visitUnder suite board now ids).2) := rfl

theorem visit_wellFiled (models : Models α σ) (board : Board α) (now : Instant) (id : OrderId)
    (hf : f.ledger.WellFiled) : (f.visit models board now id).1.ledger.WellFiled :=
  (visit_visited models board now f id hf).wellFiled hf

/-- An id that no look is about keeps its docket. -/
theorem visitUnder_frame (own : ∀ account, (suite account).fill.KeepsToOrder)
    (hf : f.ledger.WellFiled) (hid : id ∉ ids) :
    (f.visitUnder suite board now ids).1.docket id = f.docket id := by
  induction ids generalizing f with
  | nil => rfl
  | cons first ids ih =>
    rw [List.mem_cons, not_or] at hid
    have hv := visit_visited (suite f.account) board now f first hf
    rw [visitUnder_cons, ih (hv.wellFiled hf) hid.2, hv.frame hf (own _) hid.1]

/-- What a pass reports are the faults that it meets. -/
theorem visitUnder_reports (hf : f.ledger.WellFiled) :
    (f.visitUnder suite board now ids).1.reports =
      f.reports ++
        (f.faultsUnder suite board now ids).map fun (id, fault) => (id, fault.report) := by
  induction ids generalizing f with
  | nil => rw [faultsUnder, List.map_nil, List.append_nil]; rfl
  | cons id ids ih =>
    rw [visitUnder_cons, ih (visit_wellFiled _ _ _ _ hf), visit_reports _ _ _ _ _ hf, faultsUnder,
      List.map_append, List.map_map, List.append_assoc]
    rfl

/-- The ids of the faults are among the ids looked at, in their order. -/
theorem faultsUnder_sublist (suite : Portfolio α → Models α σ) (board : Board α) (now : Instant)
    (f : Floor α σ) (ids : List OrderId) :
    ((f.faultsUnder suite board now ids).map Prod.fst).Sublist ids := by
  induction ids generalizing f with
  | nil => exact List.Sublist.refl []
  | cons id ids ih =>
    rw [faultsUnder, List.map_append, List.map_map]
    cases f.faultAt? (suite f.account) board now id with
    | none => exact (ih _).cons id
    | some fault => exact (ih _).cons_cons id

/-- Of the ids looked at, the first is among the faulted if its look meets a fault. -/
theorem mem_faultsUnder_cons {j : OrderId} :
    j ∈ (f.faultsUnder suite board now (id :: ids)).map Prod.fst ↔
      j = id ∧ (f.faultAt? (suite f.account) board now id).isSome = true ∨
        j ∈ ((f.visit (suite f.account) board now id).1.faultsUnder suite board now ids).map
          Prod.fst := by
  rw [faultsUnder, List.map_append, List.mem_append, List.map_map]
  cases f.faultAt? (suite f.account) board now id with
  | none => simp
  | some fault => simp

/-- After the looks, an order that met a fault is closed by one event, which carries the report. -/
theorem visitUnder_of_fault (own : ∀ account, (suite account).fill.KeepsToOrder)
    (hf : f.ledger.WellFiled) (hn : ids.Nodup) {fault : CallFault}
    (h : (id, fault) ∈ f.faultsUnder suite board now ids) :
    ∃ order, f.ledger.get? id = some order ∧
      (f.visitUnder suite board now ids).1.docket id =
        ⟨some (order.booked (faultEvent order now fault.report)), false,
          eventsOf f.log id ++ [faultEvent order now fault.report]⟩ := by
  induction ids generalizing f with
  | nil => cases h
  | cons first ids ih =>
    obtain ⟨hfirst, hn⟩ := List.nodup_cons.mp hn
    have hf' := visit_wellFiled (suite f.account) board now first hf
    rw [visitUnder_cons]
    rcases List.mem_append.mp h with hhead | htail
    · obtain ⟨met, hmet, he⟩ := List.mem_map.mp hhead
      obtain ⟨rfl, rfl⟩ := Prod.mk.inj he
      obtain ⟨order, l, hs, hr, hvisit⟩ := visit_of_fault hf (Option.mem_toList.mp hmet)
      refine ⟨order, hs, ?_⟩
      rw [visitUnder_frame own hf' hfirst, hvisit]
      exact docket_published hr rfl (hf first order hs)
    · have hmem : id ∈ ids := (faultsUnder_sublist suite board now _ ids).subset
        (List.mem_map_of_mem (f := Prod.fst) htail)
      have hne : id ≠ first := by
        rintro rfl
        exact hfirst hmem
      have hsame : (f.visit (suite f.account) board now first).1.docket id = f.docket id :=
        (visit_visited _ board now f first hf).frame hf (own _) hne
      obtain ⟨order, hs, hdocket⟩ := ih hf' hn htail
      have hget := congrArg Docket.order hsame
      have hevents := congrArg Docket.events hsame
      refine ⟨order, hget.symm.trans hs, ?_⟩
      rw [hdocket]
      exact congrArg (Docket.mk _ _ <| · ++ _) hevents

end Passes

end Floor

/-! ## Two passes in lockstep -/

/-- Without the ids in a list, and without the events about them, the first floor is the second. -/
structure Floor.Alike (faulted : List OrderId) (f g : Floor α σ) : Prop where
  account : f.account = g.account
  memory : f.memory = g.memory
  get? : ∀ id, id ∉ faulted → f.ledger.get? id = g.ledger.get? id
  isPending : ∀ id, id ∉ faulted → f.ledger.isPending id = g.ledger.isPending id
  log : (f.log.filter fun e => e.orderId ∉ faulted) = g.log

/-- Two ledgers that agree on the order of an event book it alike, or both do not. -/
theorem Ledger.record?_congr {l l' : Ledger α} {e : OrderEvent α}
    (hget : l.get? e.orderId = l'.get? e.orderId)
    (hpending : l.isPending e.orderId = l'.isPending e.orderId) :
    l.record? e = none ∧ l'.record? e = none ∨
      ∃ m m' order pending, l.record? e = some m ∧ l'.record? e = some m' ∧
        l.Refiled m e.orderId order pending ∧ l'.Refiled m' e.orderId order pending := by
  cases hl : l.record? e with
  | some m =>
    obtain ⟨stored, hs, ha, hr⟩ := record?_refiled hl
    obtain ⟨m', hl', hr'⟩ := record?_of_allows (hget.symm.trans hs) ha
    rw [← hpending] at hr'
    exact .inr ⟨m, m', _, _, rfl, hl', hr, hr'⟩
  | none =>
    cases hl' : l'.record? e with
    | none => exact .inl ⟨rfl, rfl⟩
    | some m' =>
      obtain ⟨stored, hs, ha, -⟩ := record?_refiled hl'
      obtain ⟨m, hm, -⟩ := record?_of_allows (hget.trans hs) ha
      rw [hm] at hl
      cases hl

namespace Floor.Alike

variable {faulted : List OrderId} {f g : Floor α σ} {id : OrderId}

omit [Scalar α] in
theorem withMemory (h : Alike faulted f g) (memory : σ) :
    Alike faulted { f with memory := memory } { g with memory := memory } :=
  { h with memory := rfl }

omit [Scalar α] in
/-- One filing under one id keeps the floors alike. -/
theorem refile (h : Alike faulted f g) {l l' : Ledger α} {order : Order α} {pending : Bool}
    (hl : f.ledger.Refiled l id order pending) (hl' : g.ledger.Refiled l' id order pending) :
    Alike faulted { f with ledger := l } { g with ledger := l' } where
  account := h.account
  memory := h.memory
  log := h.log
  get? j hj := by
    rw [hl.get?, hl'.get?, h.get? j hj]
  isPending j hj := by
    rw [hl.isPending, hl'.isPending, h.isPending j hj]

theorem publish (h : Alike faulted f g) {event : OrderEvent α} (he : event.orderId ∉ faulted) :
    Alike faulted (f.publish event) (g.publish event) where
  account := congrArg (fun account => account.applyFill event) h.account
  memory := h.memory
  get? := h.get?
  isPending := h.isPending
  log := by
    show (f.log ++ [event]).filter _ = g.log ++ [event]
    rw [List.filter_append, h.log]
    simp [he]

theorem commit (h : Alike faulted f g) (event : OrderEvent α) (he : event.orderId ∉ faulted) :
    Alike faulted (f.commit event).1 (g.commit event).1 ∧
      (f.commit event).2 = (g.commit event).2 := by
  rcases Ledger.record?_congr (h.get? _ he) (h.isPending _ he) with
    ⟨hf, hg⟩ | ⟨l, l', order, pending, hf, hg, hl, hl'⟩
  · rw [commit_of_none hf, commit_of_none hg]
    exact ⟨h, rfl⟩
  · rw [commit_of_some hf, commit_of_some hg]
    exact ⟨(h.refile hl hl').publish he, rfl⟩

omit [Scalar α] in
theorem report (h : Alike faulted f g) (id : OrderId) (message : String) :
    Alike faulted (f.report id message) (g.report id message) :=
  ⟨h.account, h.memory, h.get?, h.isPending, h.log⟩

/-- Carrying out one verdict on both floors keeps them alike. -/
theorem settle (h : Alike faulted f g) {models : Models α σ} (own : models.fill.KeepsToOrder)
    {now : Instant} {order : Order α} (hs : f.ledger.get? order.id = some order)
    (hid : order.id ∉ faulted) {verdict : Verdict α} (hv : models.MayJudge now order verdict) :
    Alike faulted (f.settle order now verdict).1 (g.settle order now verdict).1 ∧
      (f.settle order now verdict).2 = (g.settle order now verdict).2 := by
  cases hv with
  | hold => exact ⟨h, rfl⟩
  | close message hstatus => exact ⟨(h.commit _ hid).1, rfl⟩
  | fault report => exact ⟨((h.report order.id report).commit _ hid).1, rfl⟩
  | @answer event kind hi =>
    have hevent : event.orderId ∉ faulted := by
      rw [hi.orderId own]
      exact hid
    have hkind := h.refile (Ledger.setKind_refiled kind hs)
      (h.isPending _ hid ▸ Ledger.setKind_refiled kind ((h.get? _ hid).symm.trans hs))
    obtain ⟨hcommit, htaken⟩ := hkind.commit event hevent
    simp only [Floor.settle]
    split
    · exact ⟨hkind, rfl⟩
    · exact ⟨hcommit, by rw [htaken]⟩

omit [Scalar α] in
theorem dropPending (h : Alike faulted f g) (id : OrderId) :
    Alike faulted { f with ledger := f.ledger.dropPending id }
      { g with ledger := g.ledger.dropPending id } where
  account := h.account
  memory := h.memory
  get? := h.get?
  log := h.log
  isPending j hj := by
    rw [Ledger.isPending_dropPending, Ledger.isPending_dropPending, h.isPending j hj]

variable {suite : Portfolio α → Models α σ} {board : Board α} {now : Instant}

/-- A look at a spared id does the same on both floors. -/
theorem visit (h : Alike faulted f g) (board : Board α) (now : Instant) (hf : f.ledger.WellFiled)
    {models : Models α σ} (own : models.fill.KeepsToOrder) (hid : id ∉ faulted) :
    Alike faulted (f.visit models board now id).1 (g.visit models board now id).1 ∧
      (f.visit models board now id).2 = (g.visit models board now id).2 := by
  have hget := h.get? id hid
  rcases visit_cases models board now f id with
    ⟨order, hs, ho, -, hvisit⟩ | ⟨hstale, -, hvisit⟩ <;>
  rcases visit_cases models board now g id with
    ⟨order', hs', ho', -, hvisit'⟩ | ⟨hstale', -, hvisit'⟩
  · obtain rfl := Option.some.inj ((hs.symm.trans hget).trans hs')
    have hjudge : models.judge board g.account order now g.memory =
        models.judge board f.account order now f.memory := by
      rw [h.account, h.memory]
    have horder : order.id = id := hf id order hs
    rw [hvisit, hvisit', hjudge]
    rw [← horder] at hs hid
    exact (h.withMemory (models.judge board f.account order now f.memory).2).settle own hs hid
      (models.judge_mayJudge board f.account order now f.memory)
  · rw [hstale' order (hget.symm.trans hs)] at ho
    cases ho
  · rw [hstale order' (hget.trans hs')] at ho'
    cases ho'
  · rw [hvisit, hvisit']
    exact ⟨h.dropPending id, rfl⟩

/-- A look that meets a fault leaves the first floor alike to the second. -/
theorem visit_of_fault (h : Alike faulted f g) (hf : f.ledger.WellFiled)
    (separate : Separate suite) (hzero : ¬ (Scalar.tolerance : α) ≤ Scalar.abs 0)
    (hid : id ∈ faulted) {fault : CallFault}
    (hfault : f.faultAt? (suite f.account) board now id = some fault) :
    Alike faulted (f.visit (suite f.account) board now id).1 g := by
  obtain ⟨order, l, hs, hr, hvisit⟩ := Floor.visit_of_fault hf hfault
  have horder : order.id = id := hf id order hs
  have hne : ∀ j, j ∉ faulted → j ≠ id := by
    rintro j hj rfl
    exact hj hid
  rw [hvisit]
  constructor
  · -- the event fills nothing
    show f.account.applyFill (faultEvent order now fault.report) = g.account
    rw [← h.account, Portfolio.applyFill_of_not_fill]
    exact decide_eq_false hzero
  · exact (separate.leaves _ _ _ _ _).trans h.memory
  · intro j hj
    exact (hr.get?_of_ne (hne j hj)).trans (h.get? j hj)
  · intro j hj
    exact (hr.isPending_of_ne (hne j hj)).trans (h.isPending j hj)
  · have hevent : (faultEvent order now fault.report).orderId ∈ faulted := by
      show order.id ∈ faulted
      rw [horder]
      exact hid
    show (f.log ++ [faultEvent order now fault.report]).filter _ = g.log
    rw [List.filter_append, h.log]
    simp [hevent]

/-- Looks at a list of ids, and looks at those of them that meet no fault, stay in lockstep. -/
theorem visitUnder (h : Alike faulted f g) (separate : Separate suite)
    (hzero : ¬ (Scalar.tolerance : α) ≤ Scalar.abs 0) (board : Board α) (now : Instant)
    {ids : List OrderId} (hf : f.ledger.WellFiled) (hn : ids.Nodup)
    (hmem : ∀ id ∈ ids,
      id ∈ faulted ↔ id ∈ (f.faultsUnder suite board now ids).map Prod.fst) :
    Alike faulted (f.visitUnder suite board now ids).1
        (g.visitUnder suite board now (ids.filter fun id => id ∉ faulted)).1 ∧
      (f.visitUnder suite board now ids).2 =
        (g.visitUnder suite board now (ids.filter fun id => id ∉ faulted)).2 := by
  induction ids generalizing f g with
  | nil => exact ⟨h, rfl⟩
  | cons id ids ih =>
    obtain ⟨hid, hn⟩ := List.nodup_cons.mp hn
    have hf' := visit_wellFiled (suite f.account) board now id hf
    have hhead := hmem id List.mem_cons_self
    -- of the ids that follow, the list says the same
    have hmem' : ∀ j ∈ ids, j ∈ faulted ↔
        j ∈ ((f.visit (suite f.account) board now id).1.faultsUnder suite board now ids).map
          Prod.fst := by
      intro j hj
      have hne : j ≠ id := by
        rintro rfl
        exact hid hj
      rw [hmem j (List.mem_cons_of_mem id hj), mem_faultsUnder_cons]
      exact or_iff_right fun h => hne h.1
    rw [visitUnder_cons]
    cases hfault : f.faultAt? (suite f.account) board now id with
    | some fault =>
      have hin : id ∈ faulted := by
        rw [hhead, mem_faultsUnder_cons, hfault]
        exact .inl ⟨rfl, rfl⟩
      rw [List.filter_cons_of_neg (by simpa using hin)]
      obtain ⟨halike, hagain⟩ := ih (h.visit_of_fault hf separate hzero hin hfault) hf' hn hmem'
      obtain ⟨order, l, -, -, hvisit⟩ := Floor.visit_of_fault hf hfault
      refine ⟨halike, ?_⟩
      rw [← hagain, hvisit, Bool.false_or]
    | none =>
      have hout : id ∉ faulted := by
        rw [hhead, mem_faultsUnder_cons, hfault]
        rintro (⟨-, hsome⟩ | hlate)
        · cases hsome
        · exact hid ((faultsUnder_sublist suite board now _ ids).subset hlate)
      obtain ⟨hlook, hneeded⟩ := h.visit board now hf (separate.own _) hout
      rw [List.filter_cons_of_pos (by simpa using hout), visitUnder_cons, ← h.account]
      obtain ⟨halike, hagain⟩ := ih hlook hf' hn hmem'
      exact ⟨halike, by rw [hneeded, hagain]⟩

end Floor.Alike

/-! ## The pass over a ledger without the faulted orders -/

namespace Table

variable {κ υ : Type} [Ord κ] [DecidableEq κ]

/-- The table without the records under some keys. -/
def without (t : Table κ υ) (keys : List κ) : Table κ υ :=
  ⟨t.entries.filter fun e => e.1 ∉ keys, t.ascending.filter _⟩

theorem keys_without (t : Table κ υ) (keys : List κ) :
    (t.without keys).keys = t.keys.filter fun k => k ∉ keys := by
  rw [Table.keys, without, Table.keys, List.filter_map]
  rfl

theorem get?_without [Std.LawfulEqOrd κ] (t : Table κ υ) {keys : List κ} {k : κ}
    (h : k ∉ keys) : (t.without keys).get? k = t.get? k := by
  rw [get?, get?, without, List.find?_filter]
  congr 2
  funext e
  by_cases hk : e.1 = k
  · simp [hk, h]
  · simp [hk]

end Table

/-- The ledger without the orders of some ids. -/
def Ledger.without (l : Ledger α) (ids : List OrderId) : Ledger α :=
  ⟨l.orders.without ids, l.pending.without ids⟩

omit [Scalar α] in
/-- A floor and the floor without some ids are alike. -/
theorem Floor.alike_without (f : Floor α σ) (ids : List OrderId) (hlog : f.log = []) :
    Alike ids f { f with ledger := f.ledger.without ids } where
  account := rfl
  memory := rfl
  get? _ h := (Table.get?_without _ h).symm
  isPending _ h := congrArg Option.isSome (Table.get?_without f.ledger.pending h).symm
  log := by
    rw [hlog]
    rfl

/-- What a pass does to the orders that met a fault, and that it does to all others what the pass
over the spared state does. -/
structure Isolated (l : Ledger α) (faults : List (OrderId × CallFault))
    (run spared : Floor α σ × Bool) : Prop where
  /-- Each fault is reported once, in the order of the looks, and nothing else is. -/
  reports : run.1.reports = faults.map fun (id, fault) => (id, fault.report)
  once : (faults.map Prod.fst).Nodup
  /-- An order that met a fault is closed by one event, and no longer pending. -/
  closed : ∀ id fault, (id, fault) ∈ faults → l.isPending id = true ∧
    run.1.ledger.isPending id = false ∧ ∃ event, eventsOf run.1.log id = [event] ∧
      event.status = .invalid ∧ event.message = some fault.report ∧ event.fillQuantity = 0 ∧
      event.fee = 0 ∧ ∀ account : Portfolio α, account.applyFill event = account
  events : (run.1.log.filter fun e => e.orderId ∉ faults.map Prod.fst) = spared.1.log
  stored : ∀ id, id ∉ faults.map Prod.fst → run.1.ledger.get? id = spared.1.ledger.get? id
  pending : ∀ id, id ∉ faults.map Prod.fst →
    run.1.ledger.isPending id = spared.1.ledger.isPending id
  account : run.1.account = spared.1.account
  again : run.2 = spared.2

namespace Floor

variable {suite : Portfolio α → Models α σ}

theorem passUnder_isolated (separate : Separate suite)
    (hzero : ¬ (Scalar.tolerance : α) ≤ Scalar.abs 0) (board : Board α) (now : Instant)
    (f : Floor α σ) (hf : f.ledger.WellFiled) (hlog : f.log = []) (hreports : f.reports = []) :
    let faults := f.faultsUnder suite board now f.ledger.pendingIds
    Isolated f.ledger faults (f.passUnder suite board now)
      ({ f with ledger := f.ledger.without (faults.map Prod.fst) }.passUnder suite board now) := by
  intro faults
  have hn := f.ledger.pendingIds_nodup
  have hsub := faultsUnder_sublist suite board now f f.ledger.pendingIds
  obtain ⟨halike, hagain⟩ := (f.alike_without (faults.map Prod.fst) hlog).visitUnder
    separate hzero board now hf hn fun id hid => Iff.rfl
  have hspared : (f.ledger.without (faults.map Prod.fst)).pendingIds =
      f.ledger.pendingIds.filter fun id => id ∉ faults.map Prod.fst :=
    Table.keys_without f.ledger.pending _
  rw [← hspared] at halike hagain
  constructor
  · rw [passUnder, visitUnder_reports hf, hreports]
    rfl
  · exact hn.sublist hsub
  · intro id fault hfault
    have hpending : f.ledger.isPending id = true :=
      Ledger.mem_pendingIds.mp (hsub.subset (List.mem_map_of_mem (f := Prod.fst) hfault))
    obtain ⟨order, hs, hdocket⟩ := visitUnder_of_fault separate.own hf hn hfault
    refine ⟨hpending, congrArg Docket.pending hdocket, faultEvent order now fault.report, ?_,
      rfl, rfl, rfl, rfl, ?_⟩
    · have hevents := congrArg Docket.events hdocket
      rw [hlog] at hevents
      exact hevents
    · intro account
      exact Portfolio.applyFill_of_not_fill (decide_eq_false hzero)
  · exact halike.log
  · exact halike.get?
  · exact halike.isPending
  · exact halike.account
  · exact hagain

end Floor

/-- A fault harms only the order it strikes. In a pass with models that answer by the call and the
account, fills by the built-in rules without a cap, and arithmetic in which a fill of zero is none,
each order whose models fault is reported and closed once, and to all others, the account and the
mark for another pass the same happens as without the faulted orders. The ledger is any that stores
its orders under their own ids. -/
theorem AccountModels.pass_isolates_faults (models : AccountModels α)
    (hzero : ¬ (Scalar.tolerance : α) ≤ Scalar.abs 0) (board : Board α) (now : Instant)
    (l : Ledger α) (hl : l.WellFiled) (account : Portfolio α) (u : Usage α) :
    let start : Floor α (Usage α) := ⟨l, account, u, [], []⟩
    let faults := start.faultsUnder models.suite board now l.pendingIds
    let spared := { start with ledger := l.without (faults.map Prod.fst) }
    Isolated l faults (start.passUnder models.suite board now)
      (spared.passUnder models.suite board now) := by
  intro start faults spared
  exact start.passUnder_isolated models.separate hzero board now hl rfl rfl

/-- Five purchases: the second and the fourth are struck by crashes, before and at the fill, and the
third by a fee that is not quoted once the first has taken its cash. -/
theorem AccountModels.pass_isolates_faults_of_crashes :
    let order (id : OrderId) (quantity : Float) (tag : String) : Order Float :=
      { id := id, symbol := "SPY", quantity := quantity, kind := .market, time := ⟨0⟩, filled := 0,
        tag := tag }
    let account : Portfolio Float := Portfolio.ofCash "USD" 1000
    let desk := (Desk.opening account (Table.empty : Usage Float)).run
      (Config.default.models Table.empty)
      [.showSnapshot (Snapshot.ofBar "SPY" (Bar.flat ⟨60⟩ 100 50)), .place (order 1 2 ""),
        .place (order 2 1 "unknown margin"), .place (order 3 3 ""), .place (order 4 1 "unmatched"),
        .place (order 5 1 "")]
    -- fees are quoted to an account with enough cash
    let models : AccountModels Float :=
      { executable := fun _ security _ => security.hasPrice
        afford := fun account security order fee =>
          if order.tag = "unknown margin" then .error (.crash none)
          else .ok (account.check 1 security order fee)
        schedule := fun _ _ => .perUnit
        charge := fun account _ _ _ price quantity =>
          if account.cash < price * quantity + 550 then .error (.error ["no quote", "low cash"])
          else .ok 1
        rules := ⟨0, 0.01, none⟩
        uncapped := rfl
        fillFault? := fun _ _ order _ =>
          if order.tag = "unmatched" then some (.crash (some "no match")) else none }
    let start : Floor Float (Usage Float) := ⟨desk.ledger, account, Table.empty, [], []⟩
    let faults := start.faultsUnder models.suite desk.board ⟨60⟩ desk.ledger.pendingIds
    let run := start.passUnder models.suite desk.board ⟨60⟩
    let others := { start with ledger := desk.ledger.without (faults.map Prod.fst) }
    let spared := others.passUnder models.suite desk.board ⟨60⟩
    ¬ (Scalar.tolerance : Float) ≤ Scalar.abs 0 ∧ desk.ledger.WellFiled ∧
      run.1.reports =
        [(2, "Buying power model failed: panicked: unknown panic payload"),
          (3, "Buying power model failed: no quote: low cash"),
          (4, "Fill model failed: panicked: no match")] ∧
      spared.1.log.map (fun e => (e.orderId, e.status)) = [(1, .filled), (5, .filled)] ∧
      Isolated desk.ledger faults run spared := by
  intro order account desk models start faults run others spared
  have hzero : ¬ (Scalar.tolerance : Float) ≤ Scalar.abs 0 := by decide
  have hl : desk.ledger.WellFiled := by
    -- at the default transparency the run itself would be unfolded
    with_reducible apply Desk.run_wellFiled
    exact Desk.opening_wellFiled _ _
  exact ⟨hzero, hl, by decide +kernel, by decide +kernel,
    models.pass_isolates_faults hzero desk.board ⟨60⟩ desk.ledger hl account Table.empty⟩

/-! ## The pass of a desk -/

/-- The models know of the account what the power check is told, and nothing else. -/
structure AccountModels.ToldByCheck (models : AccountModels α) : Prop where
  executable : ∀ account account', models.executable account = models.executable account'
  schedule : ∀ account account', models.schedule account = models.schedule account'
  charge : ∀ account account', models.charge account = models.charge account'
  fillFault? : ∀ account account', models.fillFault? account = models.fillFault? account'

/-- Such models are one suite, whatever the account: the power check of a suite is told the account
by the pass. -/
theorem AccountModels.ToldByCheck.suite_eq {models : AccountModels α} (told : models.ToldByCheck)
    (account account' : Portfolio α) : models.suite account = models.suite account' := by
  unfold suite
  rw [told.executable account account', told.schedule account account',
    told.charge account account', told.fillFault? account account']

/-- A fault harms only the order it strikes, in the pass that a desk makes with fixed models. -/
theorem AccountModels.deskPass_isolates_faults (models : AccountModels α)
    (told : models.ToldByCheck) (hzero : ¬ (Scalar.tolerance : α) ≤ Scalar.abs 0)
    (board : Board α) (now : Instant) (l : Ledger α) (hl : l.WellFiled) (account : Portfolio α)
    (u : Usage α) :
    let suite := models.suite account
    let start : Floor α (Usage α) := ⟨l, account, u, [], []⟩
    let faults := start.faultsUnder (fun _ => suite) board now l.pendingIds
    let spared := { start with ledger := l.without (faults.map Prod.fst) }
    Isolated l faults (start.pass suite board now) (spared.pass suite board now) := by
  intro suite start faults spared
  have hfixed : models.suite = fun _ => suite :=
    funext fun account' => told.suite_eq account' account
  have separate : Separate fun _ : Portfolio α => suite := hfixed ▸ models.separate
  rw [← Floor.passUnder_const, ← Floor.passUnder_const]
  exact start.passUnder_isolated separate hzero board now hl rfl rfl

/-- The built-in models without a cap on a bar's volume, of whose fill model any call may fault. -/
def Config.accountModels (c : Config α) (overrides : Table String (FeePlan α))
    (hc : c.fill.participation = none)
    (fault? : Snapshot α → Order α → Instant → Option Fault) : AccountModels α where
  executable _ security _ := c.execution.executable security
  afford account security order fee :=
    .ok (account.check (effectiveLeverage c.power.leverage) security order fee)
  schedule _ symbol := ((FeePlans.mk c.fees overrides).plan symbol).schedule
  charge _ symbol _ order price quantity :=
    .ok (((FeePlans.mk c.fees overrides).plan symbol).charge order price quantity)
  rules := c.fill
  uncapped := hc
  fillFault? _ := fault?

theorem Config.accountModels_toldByCheck (c : Config α) (overrides : Table String (FeePlan α))
    (hc : c.fill.participation = none)
    (fault? : Snapshot α → Order α → Instant → Option Fault) :
    (c.accountModels overrides hc fault?).ToldByCheck where
  executable _ _ := rfl
  schedule _ _ := rfl
  charge _ _ := rfl
  fillFault? _ _ := rfl

/-- A fault of the fill model harms only the order it strikes, when a desk with otherwise built-in
models and no cap on a bar's volume makes its pass. -/
theorem Config.deskPass_isolates_fill_faults (c : Config α)
    (overrides : Table String (FeePlan α)) (hc : c.fill.participation = none)
    (fault? : Snapshot α → Order α → Instant → Option Fault)
    (hzero : ¬ (Scalar.tolerance : α) ≤ Scalar.abs 0) (board : Board α) (now : Instant)
    (l : Ledger α) (hl : l.WellFiled) (account : Portfolio α) (u : Usage α) :
    let suite := { c.models overrides with fill := c.fill.fillModel.faulting fault? }
    let start : Floor α (Usage α) := ⟨l, account, u, [], []⟩
    let faults := start.faultsUnder (fun _ => suite) board now l.pendingIds
    let spared := { start with ledger := l.without (faults.map Prod.fst) }
    Isolated l faults (start.pass suite board now) (spared.pass suite board now) :=
  -- the suite of these models is the built-in one with the other fill model
  (c.accountModels overrides hc fault?).deskPass_isolates_faults
    (c.accountModels_toldByCheck overrides hc fault?) hzero board now l hl account u

end TradingDesk
