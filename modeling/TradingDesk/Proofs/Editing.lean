import Mathlib.Data.List.Nodup
import TradingDesk.Proofs.Admission
/- Proofs.Editing — what an update changes of an order, and the identifiers an order gathers.

   An update replaces the quantity, the kind, the time in force and the note of the stored
   order and leaves all else of it as it is (`applyUpdate_eq`), but for two things: a stop
   that was reached stays reached where the new kind can say so, and identifiers of the
   update that the order lacks are added at the end of those it has. Both are done once the
   update is applied, so a second time changes nothing (`applyUpdate_applyUpdate`).

   Identifiers are also given by the desk itself, when it accepts a placement or an update.
   Either way they are only added, and only where they are new: every turn of a docket keeps
   what `Order.Gathers` says, and with it every run (`gathers_of_turns`). -/
namespace TradingDesk

variable {α σ : Type}

/-! ## Identifiers -/

namespace Order

/-- The second order has the identifiers of the first, in their order, with any others after them,
and has none twice unless the first does. -/
structure Gathers (o o' : Order α) : Prop where
  kept : o.brokerIds <+: o'.brokerIds
  distinct : o.brokerIds.Nodup → o'.brokerIds.Nodup

namespace Gathers

variable {o o' o'' : Order α}

theorem of_eq (h : o'.brokerIds = o.brokerIds) : o.Gathers o' where
  kept := h ▸ List.prefix_rfl
  distinct hn := h ▸ hn

theorem trans (h : o.Gathers o') (h' : o'.Gathers o'') : o.Gathers o'' where
  kept := h.kept.trans h'.kept
  distinct hn := h'.distinct (h.distinct hn)

theorem nodup_iff (h : o.Gathers o') : o'.brokerIds.Nodup ↔ o.brokerIds.Nodup :=
  ⟨fun hn => hn.sublist h.kept.sublist, h.distinct⟩

end Gathers

variable {o : Order α} {brokerId : String} {ids : List String}

theorem addBrokerId_of_mem (h : brokerId ∈ o.brokerIds) : o.addBrokerId brokerId = o := by
  rw [addBrokerId, if_pos (List.contains_iff_mem.mpr h)]

theorem brokerIds_addBrokerId_of_not_mem (h : brokerId ∉ o.brokerIds) :
    (o.addBrokerId brokerId).brokerIds = o.brokerIds ++ [brokerId] := by
  rw [addBrokerId, if_neg (mt List.contains_iff_mem.mp h)]

theorem mem_brokerIds_addBrokerId (o : Order α) (brokerId : String) :
    brokerId ∈ (o.addBrokerId brokerId).brokerIds := by
  by_cases h : brokerId ∈ o.brokerIds
  · rwa [addBrokerId_of_mem h]
  · rw [brokerIds_addBrokerId_of_not_mem h]
    exact List.mem_concat_self

theorem gathers_addBrokerId (o : Order α) (brokerId : String) :
    o.Gathers (o.addBrokerId brokerId) := by
  by_cases h : brokerId ∈ o.brokerIds
  · rw [addBrokerId_of_mem h]
    exact .of_eq rfl
  · have hids := brokerIds_addBrokerId_of_not_mem h
    refine ⟨hids ▸ List.prefix_append _ _, fun hn => ?_⟩
    rw [hids, ← List.concat_eq_append]
    exact hn.concat h

theorem gathers_foldl_addBrokerId (ids : List String) (o : Order α) :
    o.Gathers (ids.foldl addBrokerId o) := by
  induction ids generalizing o with
  | nil => exact .of_eq rfl
  | cons brokerId ids ih => exact (o.gathers_addBrokerId brokerId).trans (ih _)

theorem mem_brokerIds_foldl (h : brokerId ∈ ids) (o : Order α) :
    brokerId ∈ (ids.foldl addBrokerId o).brokerIds := by
  induction ids generalizing o with
  | nil => cases h
  | cons first ids ih =>
    rcases List.mem_cons.mp h with rfl | h
    · exact (gathers_foldl_addBrokerId ids _).kept.subset (o.mem_brokerIds_addBrokerId brokerId)
    · exact ih h _

theorem foldl_addBrokerId_of_subset (h : ∀ brokerId ∈ ids, brokerId ∈ o.brokerIds) :
    ids.foldl addBrokerId o = o := by
  induction ids with
  | nil => rfl
  | cons brokerId ids ih =>
    rw [List.foldl_cons, addBrokerId_of_mem (h brokerId List.mem_cons_self)]
    exact ih fun other hother => h other (List.mem_cons_of_mem _ hother)

/-- An identifier that is added changes nothing but the identifiers. -/
theorem addBrokerId_eq (o : Order α) (brokerId : String) :
    o.addBrokerId brokerId = { o with brokerIds := (o.addBrokerId brokerId).brokerIds } := by
  unfold addBrokerId
  split <;> rfl

theorem foldl_addBrokerId_eq (ids : List String) (o : Order α) :
    ids.foldl addBrokerId o = { o with brokerIds := (ids.foldl addBrokerId o).brokerIds } := by
  let bare (o : Order α) : Order α := { o with brokerIds := [] }
  have hbare : ∀ o brokerId, bare (addBrokerId o brokerId) = bare o := by
    intro o brokerId
    rw [addBrokerId_eq]
  have hrest : bare (ids.foldl addBrokerId o) = bare o := foldl_addBrokerId hbare ids o
  exact congrArg (fun o' => { o' with brokerIds := (ids.foldl addBrokerId o).brokerIds }) hrest

/-! ## Updates -/

/-- An update changes no other field than these. -/
theorem applyUpdate_eq (o update : Order α) :
    o.applyUpdate update =
      { o with
        quantity := update.quantity
        kind := update.kind.trigger o.kind.isTriggered
        timeInForce := update.timeInForce
        tag := update.tag
        brokerIds := (o.applyUpdate update).brokerIds } :=
  foldl_addBrokerId_eq _ _

theorem gathers_applyUpdate (o update : Order α) : o.Gathers (o.applyUpdate update) := by
  have hstart : o.Gathers
      { o with
        quantity := update.quantity
        kind := update.kind.trigger o.kind.isTriggered
        timeInForce := update.timeInForce
        tag := update.tag } := .of_eq rfl
  exact hstart.trans (gathers_foldl_addBrokerId update.brokerIds _)

/-- The order has the identifiers of an update that was applied to it. -/
theorem mem_brokerIds_applyUpdate {update : Order α} (h : brokerId ∈ update.brokerIds)
    (o : Order α) : brokerId ∈ (o.applyUpdate update).brokerIds :=
  mem_brokerIds_foldl h _

end Order

/-- The mark of a reached stop is there once, however often it is set. -/
theorem OrderKind.trigger_trigger (kind : OrderKind α) (reached : Bool) :
    kind.trigger (kind.trigger reached).isTriggered = kind.trigger reached := by
  cases kind with
  | stopLimit stop price triggered => cases triggered <;> cases reached <;> rfl
  | _ => rfl

namespace Order

/-- An update that was applied changes nothing when it is applied again. -/
theorem applyUpdate_applyUpdate (o update : Order α) :
    (o.applyUpdate update).applyUpdate update = o.applyUpdate update := by
  have hkind : update.kind.trigger (o.applyUpdate update).kind.isTriggered =
      (o.applyUpdate update).kind := by
    rw [applyUpdate_kind, OrderKind.trigger_trigger]
  -- but for the identifiers, the order takes what it has
  have hfields : { o.applyUpdate update with
      quantity := update.quantity
      kind := update.kind.trigger (o.applyUpdate update).kind.isTriggered
      timeInForce := update.timeInForce
      tag := update.tag } = o.applyUpdate update := by
    rw [hkind]
    conv_rhs => rw [applyUpdate_eq]
    conv_lhs => rw [applyUpdate_eq]
  have hids : ∀ brokerId ∈ update.brokerIds, brokerId ∈ (o.applyUpdate update).brokerIds :=
    fun _ h => mem_brokerIds_applyUpdate h o
  rw [applyUpdate, hfields, foldl_addBrokerId_of_subset hids]

variable [Scalar α]

/-- The identifiers of an update have no part in whether it is accepted. -/
theorem validateUpdate_addBrokerId (stored update : Order α) (brokerId : String) :
    stored.validateUpdate (update.addBrokerId brokerId) = stored.validateUpdate update := by
  unfold addBrokerId
  split <;> rfl

theorem isOk_validateUpdate {stored update : Order α} (hv : update.validate.isOk = true)
    (hs : Scalar.sameSign update.quantity stored.quantity = true)
    (hl : ¬ Scalar.abs update.quantity - Scalar.abs stored.filled < Scalar.tolerance) :
    (stored.validateUpdate update).isOk = true := by
  cases h : update.validate with
  | error fault =>
    rw [h] at hv
    cases hv
  | ok =>
    rw [validateUpdate, h]
    simp only [hs, Bool.not_true, Bool.false_eq_true, if_false, if_neg hl]
    rfl

/-- An update that an order can take it can take again. -/
theorem validateUpdate_again {stored update applied : Order α}
    (h : (stored.validateUpdate update).isOk = true) (hq : applied.quantity = update.quantity) :
    ((stored.applyUpdate applied).validateUpdate update).isOk = true := by
  obtain ⟨hv, hs, hl⟩ := validateUpdate_ok h
  refine isOk_validateUpdate hv ?_ ?_
  · rw [Scalar.sameSign, Bool.and_eq_true, Bool.and_eq_true] at hs
    rw [applyUpdate_quantity, hq, Scalar.sameSign, hs.1.1]
    simp
  · rwa [applyUpdate_filled]

end Order

/-! ## Turns of a docket -/

variable [Scalar α]

namespace Docket

variable {models : Models α σ} {id : OrderId} {k k' : Docket α} {o : Order α}

/-- No turn takes an identifier from a stored order, or gives it one that it has. -/
theorem Turn.gathers (h : Turn models id k k') (ho : k.order = some o) :
    ∃ o', k'.order = some o' ∧ o.Gathers o' := by
  cases h with
  | place request time hid hs hv => cases ho
  | update request time hv =>
    cases ho
    exact ⟨_, rfl, o.gathers_applyUpdate _⟩
  | cancel time =>
    cases ho
    exact ⟨_, rfl, .of_eq rfl⟩
  | rekind hopen hi =>
    cases ho
    exact ⟨_, rfl, .of_eq rfl⟩
  | book kind ha hi hid hk =>
    cases ho
    exact ⟨_, rfl, .of_eq rfl⟩
  | drop hdone => exact ⟨o, ho, .of_eq rfl⟩

theorem gathers_of_turns (h : Relation.ReflTransGen (Turn models id) k k') (ho : k.order = some o) :
    ∃ o', k'.order = some o' ∧ o.Gathers o' := by
  induction h with
  | refl => exact ⟨o, ho, .of_eq rfl⟩
  | tail _ hturn ih =>
    obtain ⟨o₁, ho₁, h₁⟩ := ih
    obtain ⟨o₂, ho₂, h₂⟩ := hturn.gathers ho₁
    exact ⟨o₂, ho₂, h₁.trans h₂⟩

end Docket

/-! ## Whole runs -/

namespace Desk

variable {models : Models α σ} {d : Desk α σ} {request : Order α}

omit [Scalar α] in
theorem id_mem_named (request : Order α) : toString request.id ∈ (named request).brokerIds :=
  request.mem_brokerIds_addBrokerId _

omit [Scalar α] in
/-- What an accepted update makes of the stored order. -/
theorem applyUpdate_named (stored request : Order α) :
    stored.applyUpdate (named request) =
      { stored with
        quantity := request.quantity
        kind := request.kind.trigger stored.kind.isTriggered
        timeInForce := request.timeInForce
        tag := request.tag
        brokerIds := (stored.applyUpdate (named request)).brokerIds } := by
  rw [named, Order.addBrokerId_eq]
  exact stored.applyUpdate_eq _

omit [Scalar α] in
/-- A caller's order that came back from a desk has its identifier already. -/
theorem named_named (request : Order α) : named (named request) = named request := by
  have h : toString (named request).id ∈ (named request).brokerIds := by
    rw [named_id]
    exact id_mem_named request
  exact Order.addBrokerId_of_mem h

/-- An update that was accepted is accepted again at once, and leaves the ledger as it is. -/
theorem update_again (h : (d.update request).accepted = true) {same : Order α}
    (hsame : same = request ∨ same = named request) :
    let d' := (d.update request).desk
    (d'.update same).accepted = true ∧ (d'.update same).desk.ledger = d'.ledger := by
  intro d'
  obtain ⟨stored, l, hp, hs, hv, hr, hu⟩ := update_of_accepts (update_accepted_iff.mp h)
  have hid : same.id = request.id := by
    rcases hsame with rfl | rfl
    · rfl
    · exact named_id request
  have hnamed : named same = named request := by
    rcases hsame with rfl | rfl
    · rfl
    · exact named_named request
  have hvalid : ((stored.applyUpdate (named request)).validateUpdate same).isOk = true := by
    have hq : (named request).quantity = request.quantity := request.addBrokerId_quantity _
    have hagain := Order.validateUpdate_again hv hq
    rcases hsame with rfl | rfl
    · exact hagain
    · rwa [named, Order.validateUpdate_addBrokerId]
  have hr' : Ledger.Refiled d.ledger d'.ledger request.id
      (stored.applyUpdate (named request)) true := by
    simp only [d', hu]
    exact hr
  have haccepts : d'.acceptsUpdate same = true := by
    rw [acceptsUpdate_iff, hid]
    exact ⟨_, hr'.isPending_self, hr'.get?_self, hvalid⟩
  obtain ⟨stored', l', -, hs', -, hr'', hu'⟩ := update_of_accepts haccepts
  rw [hid] at hs' hr''
  obtain rfl := Option.some.inj (hr'.get?_self.symm.trans hs')
  rw [hnamed, Order.applyUpdate_applyUpdate] at hr''
  refine ⟨update_accepted_iff.mpr haccepts, ?_⟩
  -- what is filed the second time is what is stored
  rw [hu']
  exact hr''.eq_self hr'.get?_self hr'.isPending_self

/-- Updates edit, and identifiers are only added. After every run, whatever the models did: an
accepted update files the stored order with the quantity, the kind, the time in force and the note
of the update and with further identifiers, and files nothing else; a stop that was reached stays
reached if the new kind has one. The same update, with the caller's order as it was or as it came
back, is then accepted again and leaves the ledger as it is. And a stored order has the text of its
id among its identifiers and none of them twice if the order that was placed had none twice, and
whatever follows, it stays stored and these stay its first identifiers. -/
theorem run_edits (models : Models α σ) (account : Portfolio α) (memory : σ)
    (actions : List (Action α)) :
    let start := opening account memory
    let d := start.run models actions
    (∀ request, (d.update request).accepted = true →
      let d' := (d.update request).desk
      (∃ stored brokerIds, d.order? request.id = some stored ∧
        Ledger.Refiled d.ledger d'.ledger request.id
          { stored with
            quantity := request.quantity
            kind := request.kind.trigger stored.kind.isTriggered
            timeInForce := request.timeInForce
            tag := request.tag
            brokerIds := brokerIds } true) ∧
      ∀ same ∈ [request, (d.update request).order],
        (d'.update same).accepted = true ∧ (d'.update same).desk.ledger = d'.ledger) ∧
    ∀ id stored, d.order? id = some stored →
      toString id ∈ stored.brokerIds ∧
      (∃ placed, Accepts models start actions placed ∧ placed.id = id ∧
        (placed.brokerIds.Nodup → stored.brokerIds.Nodup)) ∧
      ∀ later : List (Action α), ∃ stored', (d.run models later).order? id = some stored' ∧
        stored.brokerIds <+: stored'.brokerIds := by
  intro start d
  refine ⟨?_, ?_⟩
  · intro request h d'
    obtain ⟨stored, l, -, hs, -, hr, hu⟩ := update_of_accepts (update_accepted_iff.mp h)
    refine ⟨⟨stored, (stored.applyUpdate (named request)).brokerIds, hs, ?_⟩, ?_⟩
    · rw [← applyUpdate_named]
      simp only [d', hu]
      exact hr
    · intro same hsame
      have hback : (d.update request).order = named request := by rw [hu]
      rw [hback, List.mem_cons, List.mem_singleton] at hsame
      exact update_again h hsame
  · intro id stored hs
    have hf : d.ledger.WellFiled := run_wellFiled models (opening_wellFiled account memory) actions
    obtain ⟨placed, haccepts, rfl⟩ := exists_accepted hs
    obtain ⟨time, hturns⟩ := run_turns_of_accepted haccepts
    obtain ⟨stored', hs', hgathers⟩ := Docket.gathers_of_turns hturns rfl
    obtain rfl := Option.some.inj (hs.symm.trans hs')
    refine ⟨hgathers.kept.subset (id_mem_named placed), ⟨placed, haccepts, rfl, ?_⟩, ?_⟩
    · intro hn
      exact hgathers.distinct ((placed.gathers_addBrokerId _).distinct hn)
    · intro later
      obtain ⟨o', ho', h⟩ := Docket.gathers_of_turns (run_turns models hf later placed.id) hs
      exact ⟨o', ho', h.kept⟩

/-- A stop-limit order that was reached and filled in part, updated to other prices while its stop
stays reached, then to a limit order, and back to a stop-limit order, which has to be reached
again. -/
theorem run_edits_of_switched_kinds :
    let c : Config Rat := { Config.default with fill := ⟨0, 1 / 100, some (1 / 2)⟩ }
    let models : Models Rat (Usage Rat) := c.models Table.empty
    let buy : Order Rat :=
      { id := 7, symbol := "SPY", quantity := 10, kind := .stopLimit 105 106 false, time := ⟨0⟩,
        filled := 0, brokerIds := ["X"] }
    let bar : Bar Rat := ⟨⟨60⟩, 104, 106, 103, 105, 8⟩
    let actions : List (Action Rat) :=
      [.showSnapshot (Snapshot.ofBar "SPY" bar), .place buy, .scan ⟨60⟩]
    let d := (opening (Portfolio.ofCash "USD" 5000) Table.empty).run models actions
    let resized : Order Rat :=
      { buy with
        quantity := 12, kind := .stopLimit 104 107 false, tag := "more", brokerIds := ["Y", "X"] }
    let limit : Order Rat := { resized with kind := .limit 107 }
    let d' := (d.update resized).desk
    let later := [.update limit, .update resized]
    (d.update resized).accepted = true ∧
      (d'.order? 7).map (fun o => (o.quantity, o.kind, o.tag, o.filled, o.brokerIds)) =
        some (12, .stopLimit 104 107 true, "more", 4, ["X", "7", "Y"]) ∧
      ((d'.run models later).order? 7).map (fun o => (o.kind, o.brokerIds)) =
        some (.stopLimit 104 107 false, ["X", "7", "Y"]) ∧
      (d'.update resized).accepted = true ∧ (d'.update resized).desk.ledger = d'.ledger ∧
      ∃ stored, d.order? 7 = some stored ∧ stored.brokerIds.Nodup ∧
        ∃ stored', (d.run models (.update resized :: later)).order? 7 = some stored' ∧
          stored.brokerIds <+: stored'.brokerIds := by
  intro c models buy bar actions d resized limit d' later
  obtain ⟨hedits, hgathers⟩ :=
    run_edits models (Portfolio.ofCash "USD" 5000) Table.empty actions
  have haccepted : (d.update resized).accepted = true := by decide +kernel
  obtain ⟨-, hagain⟩ := hedits resized haccepted
  obtain ⟨hsame, hledger⟩ := hagain resized List.mem_cons_self
  have hstored : (d.order? 7).isSome = true := by decide +kernel
  obtain ⟨stored, hs⟩ := Option.isSome_iff_exists.mp hstored
  have hn : ((d.order? 7).map Order.brokerIds).all (fun ids => decide ids.Nodup) = true := by
    decide +kernel
  rw [hs] at hn
  obtain ⟨-, -, hlater⟩ := hgathers 7 stored hs
  exact ⟨haccepted, by decide +kernel, by decide +kernel, hsame, hledger, stored, hs,
    of_decide_eq_true hn, hlater _⟩

end Desk

end TradingDesk
