import TradingDesk.Proofs.Records
import TradingDesk.Proofs.Rounding
import TradingDesk.Document.ConfigForm
/- Proofs.Bounds — which settings pass validation.

   Each amount among the settings has a bound. Validation asks whether an amount breaks
   its bound, except for the share of volume, where it asks whether the share keeps to it.
   In floating point the two questions differ: an amount that is not a number breaks no
   bound and keeps to none. So validation lets through exactly the settings whose amounts
   keep to their bounds or are not numbers (`validate_eq_ok_iff_float`), and settings can
   be worked with if they pass and all their amounts are numbers (`workable_iff`). No
   document writes anything else than numbers (`isNumber_of_ofDocument?`), and so settings
   that are read from a text do keep to all bounds. -/
namespace TradingDesk

/-! ## Bounds -/

/-- The amounts of a fee plan. -/
def FeePlan.amounts {α : Type} : FeePlan α → List α
  | perOrder fee => [fee]
  | perUnit rate minimum => [rate, minimum]
  | basisPoints rate => [rate]

namespace Config

/-- The amounts among the settings. -/
def amounts {α : Type} (c : Config α) : List α :=
  c.account.initialCash :: c.fill.tickSize :: c.power.leverage ::
    (c.fill.participation.toList ++ c.fees.amounts)

section

variable {α : Type} [Scalar α]

/-- Settings that keep to the bounds. An amount that is not a number keeps to none. -/
structure Workable (c : Config α) : Prop where
  initialCash : 0 ≤ c.account.initialCash
  tickSize : 0 < c.fill.tickSize
  participation : ∀ p ∈ c.fill.participation, 0 < p ∧ p ≤ 1
  leverage : 1 ≤ c.power.leverage
  fees : ∀ amount ∈ c.fees.amounts, 0 ≤ amount

theorem isUsableShare_iff {p : α} : isUsableShare p = true ↔ 0 < p ∧ p ≤ 1 := by
  rw [isUsableShare, Bool.and_eq_true, decide_eq_true_iff, decide_eq_true_iff]

theorem feeFault?_eq_none_iff {plan : FeePlan α} :
    feeFault? plan = none ↔ ∀ amount ∈ plan.amounts, ¬ amount < 0 := by
  cases plan <;> simp [feeFault?, FeePlan.amounts]

/-- Settings are turned away only for an amount that is out of bounds; the share of volume is
turned away unless it is within them. -/
theorem fault?_eq_none_iff {c : Config α} :
    c.fault? = none ↔
      ¬ c.account.initialCash < 0 ∧ ¬ c.fill.tickSize ≤ 0 ∧
        (∀ p ∈ c.fill.participation, 0 < p ∧ p ≤ 1) ∧ ¬ c.power.leverage < 1 ∧
          ∀ amount ∈ c.fees.amounts, ¬ amount < 0 := by
  have hshare : ¬ (c.fill.participation.any fun p => !isUsableShare p) = true ↔
      ∀ p ∈ c.fill.participation, 0 < p ∧ p ≤ 1 := by
    cases c.fill.participation <;> simp [isUsableShare_iff]
  rw [← hshare, ← feeFault?_eq_none_iff, fault?]
  split <;> rename_i hcash
  · simp [hcash]
  split <;> rename_i htick
  · simp [htick]
  split <;> rename_i hshare
  · simp [hshare]
  split <;> rename_i hleverage
  · simp [hleverage]
  · simp [hcash, htick, hshare, hleverage]

theorem validate_eq_ok_iff {c : Config α} : c.validate = .ok () ↔ c.fault? = none := by
  rw [validate]
  cases c.fault? <;> simp

end

/-! ## What documents write -/

theorem forall_mem_amounts {c : Config Float} {P : Float → Prop} :
    (∀ x ∈ c.amounts, P x) ↔
      P c.account.initialCash ∧ P c.fill.tickSize ∧ P c.power.leverage ∧
        (∀ p ∈ c.fill.participation, P p) ∧ ∀ amount ∈ c.fees.amounts, P amount := by
  simp [amounts, or_imp, forall_and]

end Config

theorem AccountConfig.isNumber_of_ofDocument? {d : Document} {c : AccountConfig Float}
    (h : ofDocument? d = some c) : Scalar.isNumber c.initialCash = true := by
  simp only [ofDocument?, Option.bind_eq_bind, Option.bind_eq_some_iff] at h
  obtain ⟨f, -, currency, -, cash, hcash, hc⟩ := h
  cases hc
  exact Fields.of_defaulted (P := fun x => Scalar.isNumber x = true) hcash (by decide +kernel)
    Document.isNumber_of_float?

theorem FillConfig.isNumber_of_ofDocument? {d : Document} {c : FillConfig Float}
    (h : ofDocument? d = some c) :
    Scalar.isNumber c.tickSize = true ∧ ∀ p ∈ c.participation, Scalar.isNumber p = true := by
  simp only [ofDocument?, Option.bind_eq_bind, Option.bind_eq_some_iff] at h
  obtain ⟨f, -, ticks, -, tick, htick, share, hshare, hc⟩ := h
  cases hc
  constructor
  · exact Fields.of_defaulted (P := fun x => Scalar.isNumber x = true) htick (by decide +kernel)
      Document.isNumber_of_float?
  · refine Fields.of_defaulted (P := fun share => ∀ p ∈ share, Scalar.isNumber p = true) hshare
      (fun p hp => by cases hp) ?_
    intro d share hd p hp
    unfold Document.option? at hd
    split at hd
    · cases hd
      cases hp
    · obtain ⟨x, hx, rfl⟩ := Option.map_eq_some_iff.mp hd
      cases hp
      exact Document.isNumber_of_float? hx

theorem FeePlan.isNumber_of_ofDocument? {enclosing : Nat} {d : Document} {plan : FeePlan Float}
    (h : ofDocument? enclosing d = some plan) :
    ∀ amount ∈ plan.amounts, Scalar.isNumber amount = true := by
  have hrequired : ∀ {f : Fields} {name : String} {x : Float},
      f.required name Document.float? = some x → Scalar.isNumber x = true :=
    fun h => Fields.of_required (P := fun x => Scalar.isNumber x = true) h
      Document.isNumber_of_float?
  obtain ⟨⟨name, rest⟩, -, h⟩ := Option.bind_eq_some_iff.mp h
  simp only [ofParts?, Option.bind_eq_bind] at h
  split at h
  · simp only [Option.bind_eq_some_iff] at h
    obtain ⟨f, -, fee, hfee, hplan⟩ := h
    cases hplan
    exact List.forall_mem_singleton.mpr (hrequired hfee)
  split at h
  · simp only [Option.bind_eq_some_iff] at h
    obtain ⟨f, -, rate, hrate, minimum, hminimum, hplan⟩ := h
    cases hplan
    exact List.forall_mem_cons.mpr
      ⟨hrequired hrate, List.forall_mem_singleton.mpr (hrequired hminimum)⟩
  split at h
  · simp only [Option.bind_eq_some_iff] at h
    obtain ⟨f, -, rate, hrate, hplan⟩ := h
    cases hplan
    exact List.forall_mem_singleton.mpr (hrequired hrate)
  · cases h

theorem PowerConfig.isNumber_of_ofDocument? {d : Document} {c : PowerConfig Float}
    (h : ofDocument? d = some c) : Scalar.isNumber c.leverage = true := by
  simp only [ofDocument?, Option.bind_eq_bind, Option.bind_eq_some_iff] at h
  obtain ⟨f, -, leverage, hleverage, hc⟩ := h
  cases hc
  exact Fields.of_defaulted (P := fun x => Scalar.isNumber x = true) hleverage (by decide +kernel)
    Document.isNumber_of_float?

namespace Config

variable {c : Config Float}

/-- Every amount among settings that a document gives is a number. -/
theorem isNumber_of_ofDocument? {d : Document} (h : ofDocument? d = some c) :
    ∀ x ∈ c.amounts, Scalar.isNumber x = true := by
  simp only [ofDocument?, Option.bind_eq_bind, Option.bind_eq_some_iff] at h
  obtain ⟨f, -, account, haccount, fill, hfill, fees, hfees, power, hpower, execution, -, hc⟩ := h
  cases hc
  have hcash := Fields.of_defaulted (P := fun c : AccountConfig Float =>
    Scalar.isNumber c.initialCash = true) haccount (by decide +kernel)
    AccountConfig.isNumber_of_ofDocument?
  have hfill := Fields.of_defaulted (P := fun c : FillConfig Float =>
    Scalar.isNumber c.tickSize = true ∧ ∀ p ∈ c.participation, Scalar.isNumber p = true) hfill
    ⟨by decide +kernel, fun p hp => by cases hp⟩ FillConfig.isNumber_of_ofDocument?
  have hfees := Fields.of_defaulted (P := fun plan : FeePlan Float =>
    ∀ amount ∈ plan.amounts, Scalar.isNumber amount = true) hfees (by decide +kernel)
    FeePlan.isNumber_of_ofDocument?
  have hleverage := Fields.of_defaulted (P := fun c : PowerConfig Float =>
    Scalar.isNumber c.leverage = true) hpower (by decide +kernel)
    PowerConfig.isNumber_of_ofDocument?
  exact forall_mem_amounts.mpr ⟨hcash, hfill.1, hleverage, hfill.2, hfees⟩

/-! ## Validation -/

theorem validate_eq_ok_iff_float :
    c.validate = .ok () ↔
      (0 ≤ c.account.initialCash ∨ Scalar.isNumber c.account.initialCash = false) ∧
        (0 < c.fill.tickSize ∨ Scalar.isNumber c.fill.tickSize = false) ∧
        (∀ p ∈ c.fill.participation, 0 < p ∧ p ≤ 1) ∧
        (1 ≤ c.power.leverage ∨ Scalar.isNumber c.power.leverage = false) ∧
        ∀ amount ∈ c.fees.amounts, 0 ≤ amount ∨ Scalar.isNumber amount = false := by
  -- What does not break a bound that is a number keeps to it or is not a number itself.
  have hzero : Scalar.isNumber (0 : Float) = true := by decide +kernel
  have hone : Scalar.isNumber (1 : Float) = true := by decide +kernel
  simp only [validate_eq_ok_iff, fault?_eq_none_iff, Floating.not_lt_iff, Floating.not_le_iff,
    hzero, hone, and_true, Bool.not_eq_true]

theorem Workable.isNumber (h : c.Workable) : ∀ x ∈ c.amounts, Scalar.isNumber x = true :=
  forall_mem_amounts.mpr
    ⟨(Floating.isNumber_of_le h.initialCash).2, (Floating.isNumber_of_lt h.tickSize).2,
      (Floating.isNumber_of_le h.leverage).2,
      fun p hp => (Floating.isNumber_of_le (h.participation p hp).2).1,
      fun amount hamount => (Floating.isNumber_of_le (h.fees amount hamount)).2⟩

theorem workable_iff :
    c.Workable ↔ c.validate = .ok () ∧ ∀ x ∈ c.amounts, Scalar.isNumber x = true := by
  constructor
  · intro h
    refine ⟨validate_eq_ok_iff_float.mpr ?_, h.isNumber⟩
    exact ⟨.inl h.initialCash, .inl h.tickSize, h.participation, .inl h.leverage,
      fun amount hamount => .inl (h.fees amount hamount)⟩
  · rintro ⟨hvalid, hnumber⟩
    obtain ⟨hcash, htick, hshare, hleverage, hfees⟩ := validate_eq_ok_iff_float.mp hvalid
    obtain ⟨ncash, ntick, nleverage, -, nfees⟩ := forall_mem_amounts.mp hnumber
    have hbound : ∀ {P : Prop} {x : Float}, P ∨ Scalar.isNumber x = false →
        Scalar.isNumber x = true → P :=
      fun h hx => h.resolve_right (by simp [hx])
    exact ⟨hbound hcash ncash, hbound htick ntick, hshare, hbound hleverage nleverage,
      fun amount hamount => hbound (hfees amount hamount) (nfees amount hamount)⟩

theorem ofText_eq_ok_iff {text : String} :
    ofText text = .ok c ↔
      (Document.read? text).bind ofDocument? = some c ∧ c.validate = .ok () := by
  unfold ofText
  cases (Document.read? text).bind ofDocument? with
  | none => simp
  | some found =>
    dsimp only
    cases hvalid : found.validate with
    | ok _ =>
      rw [Except.ok.injEq, Option.some.injEq]
      exact ⟨fun hc => ⟨hc, hc ▸ hvalid⟩, And.left⟩
    | error fault =>
      refine ⟨fun h => (by cases h), ?_⟩
      rintro ⟨hc, hok⟩
      cases hc
      rw [hvalid] at hok
      cases hok

/-- What validation makes sure of, for all floating-point amounts. It lets settings through exactly
if every amount keeps to its bound or is not a number, the share of volume always being one that
keeps to its bounds. The settings it lets through keep to all bounds exactly if all amounts are
numbers. A text gives exactly the settings that it writes and that keep to all bounds. -/
theorem validate_ofText_iff (c : Config Float) :
    (c.validate = .ok () ↔
      (0 ≤ c.account.initialCash ∨ Scalar.isNumber c.account.initialCash = false) ∧
        (0 < c.fill.tickSize ∨ Scalar.isNumber c.fill.tickSize = false) ∧
        (∀ p ∈ c.fill.participation, 0 < p ∧ p ≤ 1) ∧
        (1 ≤ c.power.leverage ∨ Scalar.isNumber c.power.leverage = false) ∧
        ∀ amount ∈ c.fees.amounts, 0 ≤ amount ∨ Scalar.isNumber amount = false) ∧
    (c.Workable ↔ c.validate = .ok () ∧ ∀ x ∈ c.amounts, Scalar.isNumber x = true) ∧
    ∀ text, ofText text = .ok c ↔
      (Document.read? text).bind ofDocument? = some c ∧ c.Workable := by
  refine ⟨validate_eq_ok_iff_float, workable_iff, fun text => ?_⟩
  rw [ofText_eq_ok_iff, workable_iff]
  constructor
  · rintro ⟨hread, hvalid⟩
    obtain ⟨d, -, hd⟩ := Option.bind_eq_some_iff.mp hread
    exact ⟨hread, hvalid, isNumber_of_ofDocument? hd⟩
  · rintro ⟨hread, hvalid, -⟩
    exact ⟨hread, hvalid⟩

/-- Cash that is not a number passes, although it is not at least zero. -/
theorem validate_accepts_unknown_cash :
    let c : Config Float := { Config.default with account := ⟨"USD", 0 / 0⟩ }
    c.validate = .ok () ∧ ¬ 0 ≤ c.account.initialCash := by
  decide +kernel

end Config

end TradingDesk
