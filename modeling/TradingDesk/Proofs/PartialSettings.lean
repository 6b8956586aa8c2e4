import TradingDesk.Proofs.Bounds
import TradingDesk.Proofs.Rereading
/- Proofs.PartialSettings — settings of which parts are deleted have their defaults there.

   What is made of a field depends on that field alone, so a field that was kept is read
   back and one that was deleted has its default (`Fields.Finds.kept`). The sections are
   fields of the settings themselves, and so the same is said once more of them
   (`Config.ofDocument?_prune`). Every bound that validation knows is about one setting,
   and the defaults keep to all of them; so no mixture of kept settings and defaults is
   turned away (`Config.workable_settings`). -/
namespace TradingDesk

/-! ## Deleting entries -/

namespace Document

/-- The entries of an object under some names alone. -/
def keeping (keep : String → Bool) : Document → Document
  | .object entries => .object (entries.filter fun e => e.1.any keep)
  | d => d

/-- An object with each entry changed. -/
def mapEntries (change : String → Document → Document) : Document → Document
  | .object entries =>
    .object (entries.map fun e => (e.1, e.1.elim e.2 fun name => change name e.2))
  | d => d

variable {fields : List (String × Document)}

theorem keeping_record (keep : String → Bool) :
    (record fields).keeping keep = record (fields.filter fun f => keep f.1) := by
  rw [record, keeping, List.filter_map]
  rfl

theorem keeping_all {keep : String → Bool} (h : ∀ name, keep name = true) :
    (record fields).keeping keep = record fields := by
  rw [keeping_record, List.filter_eq_self.mpr fun f _ => h f.1]

theorem mapEntries_record (change : String → Document → Document) :
    (record fields).mapEntries change = record (fields.map fun f => (f.1, change f.1 f.2)) := by
  rw [record, mapEntries, record, List.map_map, List.map_map]
  rfl

theorem isWritten_keeping (keep : String → Bool) (h : (record fields).IsWritten) :
    ((record fields).keeping keep).IsWritten := by
  rw [keeping_record]
  exact isWritten_record.mpr fun f hf => isWritten_record.mp h f (List.mem_of_mem_filter hf)

/-- In a record of which entries were deleted exactly the others are found. -/
theorem finds_keeping (fields : List (String × Document)) (names : List String)
    (keep : String → Bool) (hnodup : (fields.map Prod.fst).Nodup)
    (hnames : ∀ f ∈ fields, f.1 ∈ names) :
    ∃ f, Fields.of? names ((record fields).keeping keep) = some f ∧
      f.Finds (fields.filter fun f => keep f.1) [] := by
  have hlists : (record (fields.filter fun f => keep f.1)).Lists
      (fields.filter fun f => keep f.1) [] fun _ => False := lists_record
  rw [keeping_record]
  exact hlists.finds names (hnodup.sublist (List.filter_sublist.map _))
    (fun f hf => hnames f (List.mem_of_mem_filter hf)) fun _ h => h.elim

end Document

/-- A field that was kept is read back, and one that was deleted has its default. -/
theorem Fields.Finds.kept {β : Type} {read : Document → Option β} {d : Document} {b : β}
    {f : Fields} {fields : List (String × Document)} {keep : String → Bool}
    (h : f.Finds (fields.filter fun f => keep f.1) []) (name : String) (hmem : (name, d) ∈ fields)
    (hread : read d = some b) (default : β) :
    f.defaulted name default read = some (if keep name then b else default) := by
  split
  · next hkeep =>
    rw [h.defaulted (List.mem_filter.mpr ⟨hmem, hkeep⟩) (fun h => absurd h List.not_mem_nil), hread]
  · next hkeep =>
    exact h.defaulted_of_not_mem fun d hd => hkeep (List.mem_filter.mp hd).2

/-! ## Sections -/

section

variable {α : Type} [Scalar α] (keep : String → Bool)

/-- The account settings that are kept, with the defaults of those that are not. -/
def AccountConfig.retain (c : AccountConfig α) : AccountConfig α :=
  { currency := if keep "currency" then c.currency else AccountConfig.default.currency (α := α)
    initialCash :=
      if keep "initial_cash" then c.initialCash else AccountConfig.default.initialCash }

/-- The fill rules that are kept, with the defaults of those that are not. -/
def FillConfig.retain (c : FillConfig α) : FillConfig α :=
  { slippageTicks :=
      if keep "slippage_ticks" then c.slippageTicks else FillConfig.default.slippageTicks (α := α)
    tickSize := if keep "tick_size" then c.tickSize else FillConfig.default.tickSize
    participation :=
      if keep "max_volume_participation" then c.participation
      else FillConfig.default.participation }

def PowerConfig.retain (c : PowerConfig α) : PowerConfig α :=
  ⟨if keep "leverage" then c.leverage else PowerConfig.default.leverage⟩

def ExecutionConfig.retain (c : ExecutionConfig) : ExecutionConfig :=
  ⟨if keep "require_open_market" then c.requireOpenMarket
    else ExecutionConfig.default.requireOpenMarket⟩

end

section

variable (keep : String → Bool)

theorem AccountConfig.ofDocument?_keeping {c : AccountConfig Float}
    (h : ReadsBack Document.float Document.float? c.initialCash) :
    ofDocument? (c.document.keeping keep) = some (c.retain keep) := by
  obtain ⟨f, hf, hfinds⟩ := Document.finds_keeping
    [("currency", .text c.currency), ("initial_cash", .float c.initialCash)] fieldNames keep
    (by simp) (by simp [fieldNames])
  have hcurrency := hfinds.kept "currency" (by simp) (ReadsBack.text c.currency)
  have hcash := hfinds.kept "initial_cash" (by simp) h
  rw [document]
  simp only [ofDocument?, hf, hcurrency, hcash, Option.bind_eq_bind, Option.bind_some, retain]

theorem FillConfig.ofDocument?_keeping {c : FillConfig Float}
    (htick : ReadsBack Document.float Document.float? c.tickSize)
    (hshare : ∀ p ∈ c.participation, ReadsBack Document.float Document.float? p) :
    ofDocument? (c.document.keeping keep) = some (c.retain keep) := by
  obtain ⟨f, hf, hfinds⟩ := Document.finds_keeping
    [("slippage_ticks", .natural c.slippageTicks.toNat), ("tick_size", .float c.tickSize),
      ("max_volume_participation", .option Document.float c.participation)] fieldNames keep
    (by simp) (by simp [fieldNames])
  have hnatural : ((Document.natural c.slippageTicks.toNat).natural? UInt32.size).map UInt32.ofNat =
      some c.slippageTicks := by
    rw [show (Document.natural c.slippageTicks.toNat).natural? UInt32.size =
      some c.slippageTicks.toNat from ReadsBack.natural c.slippageTicks.toNat_lt_size,
      Option.map_some, UInt32.ofNat_toNat]
  have hticks : ∀ default : UInt32, f.defaulted "slippage_ticks" default
      (fun d => (d.natural? UInt32.size).map UInt32.ofNat) =
        some (if keep "slippage_ticks" then c.slippageTicks else default) :=
    hfinds.kept _ (d := .natural c.slippageTicks.toNat) (by simp) hnatural
  have htick := hfinds.kept "tick_size" (by simp) htick
  have hshare := hfinds.kept "max_volume_participation" (by simp)
    (ReadsBack.option rfl hshare)
  rw [document]
  simp only [ofDocument?, hf, hticks, htick, hshare, Option.bind_eq_bind, Option.bind_some, retain]

theorem PowerConfig.ofDocument?_keeping {c : PowerConfig Float}
    (h : ReadsBack Document.float Document.float? c.leverage) :
    ofDocument? (c.document.keeping keep) = some (c.retain keep) := by
  obtain ⟨f, hf, hfinds⟩ := Document.finds_keeping [("leverage", .float c.leverage)] fieldNames keep
    (by simp) (by simp [fieldNames])
  have hleverage := hfinds.kept "leverage" (by simp) h
  rw [document]
  simp only [ofDocument?, hf, hleverage, Option.bind_eq_bind, Option.bind_some, retain]

theorem ExecutionConfig.ofDocument?_keeping (c : ExecutionConfig) :
    ofDocument? (c.document.keeping keep) = some (c.retain keep) := by
  obtain ⟨f, hf, hfinds⟩ := Document.finds_keeping
    [("require_open_market", .bool c.requireOpenMarket)] fieldNames keep (by simp)
    (by simp [fieldNames])
  have hopen := hfinds.kept "require_open_market" (by simp)
    (ReadsBack.bool c.requireOpenMarket)
  rw [document]
  simp only [ofDocument?, hf, hopen, Option.bind_eq_bind, Option.bind_some, retain]

end

namespace FeePlan

variable {plan : FeePlan Float}
  (h : ∀ x ∈ plan.amounts, ReadsBack Document.float Document.float? x)
include h

theorem isSound_documentFields {room : Nat} :
    ∀ f ∈ plan.documentFields, f.1 ≠ tag ∧ f.2.isSound room = true := by
  cases plan with
  | perOrder fee | basisPoints fee =>
    exact List.forall_mem_singleton.mpr
      ⟨by simp [tag], Document.isSound_float (h fee List.mem_cons_self)⟩
  | perUnit rate minimum =>
    obtain ⟨hrate, hminimum⟩ := List.forall_mem_cons.mp h
    have hminimum := List.forall_mem_singleton.mp hminimum
    exact List.forall_mem_cons.mpr ⟨⟨by simp [tag], Document.isSound_float hrate⟩,
      List.forall_mem_singleton.mpr ⟨by simp [tag], Document.isSound_float hminimum⟩⟩

theorem ofParts?_of_lists {rest : Document}
    (hrest : rest.Lists plan.documentFields [] fun _ => False) :
    ofParts? plan.documentName rest = some plan := by
  have hnodup : (plan.documentFields.map Prod.fst).Nodup := by
    cases plan <;> simp [documentFields]
  obtain ⟨f, hf, hfinds⟩ := hrest.finds _ hnodup
    (fun e he => List.mem_map_of_mem he) fun _ h => h.elim
  have hread : ∀ {x} (name : String), (name, Document.float x) ∈ plan.documentFields →
      x ∈ plan.amounts → f.required name Document.float? = some x :=
    fun name hmem hx => hfinds.reread name hmem List.not_mem_nil (h _ hx)
  cases plan with
  | perOrder fee =>
    have hf : Fields.of? ["fee"] rest = some f := hf
    have hfee := hread "fee" (by simp [documentFields]) List.mem_cons_self
    simp [documentName, ofParts?, hf, hfee]
  | perUnit rate minimum =>
    have hf : Fields.of? ["per_unit", "minimum"] rest = some f := hf
    have hrate : f.required "per_unit" Document.float? = some rate :=
      hread _ (by simp [documentFields]) (by simp [amounts])
    have hminimum : f.required "minimum" Document.float? = some minimum :=
      hread _ (by simp [documentFields]) (by simp [amounts])
    simp [documentName, ofParts?, hf, hrate, hminimum]
  | basisPoints rate =>
    have hf : Fields.of? ["bps"] rest = some f := hf
    have hrate := hread "bps" (by simp [documentFields]) List.mem_cons_self
    simp [documentName, ofParts?, hf, hrate]

theorem reread (enclosing : Nat) : ReadsBack document (ofDocument? enclosing) plan := by
  have hlists : plan.document.Lists ((tag, .text plan.documentName) :: plan.documentFields) []
      fun _ => False := Document.lists_record
  obtain ⟨rest, htagged, hrest⟩ := hlists.tagged? (isSound_documentFields h)
    (fun _ h => h.elim) List.not_mem_nil
  show (plan.document.tagged? tag enclosing).bind _ = _
  rw [htagged, Option.bind_some]
  exact ofParts?_of_lists h hrest

end FeePlan

/-! ## Selections -/

/-- A choice of what to keep of settings: of the sections, and of the fields within a section. The
fees are kept as a whole or not at all. -/
structure Selection where
  sections : String → Bool
  fields : String → String → Bool
  fees : ∀ name, fields "fees" name = true

namespace Selection

/-- The document of settings with everything deleted that is not kept. -/
def prune (s : Selection) (d : Document) : Document :=
  (d.mapEntries fun name part => part.keeping (s.fields name)).keeping s.sections

variable {α : Type} [Scalar α]

/-- The settings that are kept, with the defaults of those that are not. -/
def settings (s : Selection) (c : Config α) : Config α :=
  { account := if s.sections "account" then c.account.retain (s.fields "account")
      else AccountConfig.default
    fill := if s.sections "fill" then c.fill.retain (s.fields "fill") else FillConfig.default
    fees := if s.sections "fees" then c.fees else FeePlan.default
    power := if s.sections "buying_power" then c.power.retain (s.fields "buying_power")
      else PowerConfig.default
    execution := if s.sections "brokerage" then c.execution.retain (s.fields "brokerage")
      else ExecutionConfig.default }

/-- Settings of which everything is kept. -/
def everything : Selection := ⟨fun _ => true, fun _ _ => true, fun _ => rfl⟩

theorem settings_everything (c : Config α) : everything.settings c = c := rfl

end Selection

namespace Config

variable {c : Config Float} {s : Selection}

/-- The sections in a document of settings of which some fields were deleted. -/
def prunedSections (s : Selection) (c : Config Float) : List (String × Document) :=
  [("account", c.account.document.keeping (s.fields "account")),
    ("fill", c.fill.document.keeping (s.fields "fill")),
    ("fees", c.fees.document.keeping (s.fields "fees")),
    ("buying_power", c.power.document.keeping (s.fields "buying_power")),
    ("brokerage", c.execution.document.keeping (s.fields "brokerage"))]

theorem prune_document :
    s.prune c.document = (Document.record (prunedSections s c)).keeping s.sections := by
  rw [Selection.prune, document, Document.mapEntries_record]
  rfl

theorem ofDocument?_prune (h : ∀ x ∈ c.amounts, ReadsBack Document.float Document.float? x) :
    ofDocument? (s.prune c.document) = some (s.settings c) := by
  obtain ⟨hcash, htick, hleverage, hshare, hfees⟩ := forall_mem_amounts.mp h
  obtain ⟨f, hf, hfinds⟩ := Document.finds_keeping (prunedSections s c) fieldNames s.sections
    (by simp [prunedSections]) (by simp [prunedSections, fieldNames])
  have haccount := hfinds.kept "account" (by simp [prunedSections])
    (AccountConfig.ofDocument?_keeping (s.fields "account") hcash)
  have hfill := hfinds.kept "fill" (by simp [prunedSections])
    (FillConfig.ofDocument?_keeping (s.fields "fill") htick hshare)
  have hfeePlan := hfinds.kept "fees" (by simp [prunedSections])
    (show FeePlan.ofDocument? 1 (c.fees.document.keeping (s.fields "fees")) = some c.fees by
      rw [FeePlan.document, Document.keeping_all s.fees]
      exact FeePlan.reread hfees 1)
  have hpower := hfinds.kept "buying_power" (by simp [prunedSections])
    (PowerConfig.ofDocument?_keeping (s.fields "buying_power") hleverage)
  have hexecution := hfinds.kept "brokerage" (by simp [prunedSections])
    (ExecutionConfig.ofDocument?_keeping (s.fields "brokerage") c.execution)
  rw [prune_document]
  simp only [ofDocument?, hf, default, haccount, hfill, hfeePlan, hpower, hexecution,
    Option.bind_eq_bind, Option.bind_some, Selection.settings]

theorem prune_everything : Selection.everything.prune c.document = c.document := by
  have hfees : c.fees.document.keeping (Selection.everything.fields "fees") = c.fees.document :=
    Document.keeping_all fun _ => rfl
  have hsections : (Document.record (prunedSections .everything c)).keeping
      Selection.everything.sections = Document.record (prunedSections .everything c) :=
    Document.keeping_all fun _ => rfl
  rw [prune_document, hsections, prunedSections, hfees]
  rfl

/-! ## Texts -/

theorem isWritten_prune : (s.prune c.document).IsWritten := by
  have hnatural := Document.isWritten_natural c.fill.slippageTicks.toNat
  have hshare := Document.isWritten_option Document.isWritten_float c.fill.participation
  rw [prune_document]
  refine Document.isWritten_keeping _ (Document.isWritten_record.mpr ?_)
  simp only [prunedSections, List.forall_mem_cons]
  refine ⟨?account, ?fill, ?fees, ?power, ?execution, List.forall_mem_nil _⟩
  -- The fees alone have fields that depend on their kind, and none of these is deleted.
  case fees =>
    rw [FeePlan.document, Document.keeping_all s.fees, Document.isWritten_record]
    cases c.fees <;>
      simp [FeePlan.documentFields, Document.isWritten_text, Document.isWritten_float]
  all_goals
    refine Document.isWritten_keeping _ (Document.isWritten_record.mpr ?_)
    simp [Document.isWritten_text, Document.isWritten_float, Document.isWritten_bool, hnatural,
      hshare]

theorem workable_default : (default : Config Float).Workable :=
  ⟨by decide +kernel, by decide +kernel, fun _ h => (by cases h), by decide +kernel,
    by decide +kernel⟩

/-- Each bound is about one setting, and the defaults keep to all bounds. -/
theorem workable_settings (h : c.Workable) : (s.settings c).Workable := by
  have hdefault := workable_default
  have hpick : ∀ {β : Type} {P : β → Prop} {b b' : β} (keep : Bool), P b → P b' →
      P (if keep then b else b') := by
    intro β P b b' keep hb hb'
    split
    · exact hb
    · exact hb'
  constructor
  case initialCash =>
    exact hpick (P := fun a : AccountConfig Float => 0 ≤ a.initialCash) _
      (hpick (P := fun x => 0 ≤ x) _ h.initialCash hdefault.initialCash) hdefault.initialCash
  case tickSize =>
    exact hpick (P := fun a : FillConfig Float => 0 < a.tickSize) _
      (hpick (P := fun x => 0 < x) _ h.tickSize hdefault.tickSize) hdefault.tickSize
  case participation =>
    exact hpick (P := fun a : FillConfig Float => ∀ p ∈ a.participation, 0 < p ∧ p ≤ 1) _
      (hpick (P := fun share => ∀ p ∈ share, 0 < p ∧ p ≤ 1) _ h.participation
        hdefault.participation) hdefault.participation
  case leverage =>
    exact hpick (P := fun a : PowerConfig Float => 1 ≤ a.leverage) _
      (hpick (P := fun x => 1 ≤ x) _ h.leverage hdefault.leverage) hdefault.leverage
  case fees =>
    exact hpick (P := fun plan : FeePlan Float => ∀ amount ∈ plan.amounts, 0 ≤ amount) _ h.fees
      hdefault.fees

/-- Settings that pass validation and whose amounts are read back from what is written of them: if
sections, or fields within sections, are deleted from their document, its text gives the settings
that were kept and the defaults of the others, and these pass validation again. If nothing is
deleted, it gives the settings themselves. -/
theorem ofText_prune (c : Config Float) (s : Selection) (hvalid : c.validate = .ok ())
    (hread : ∀ x ∈ c.amounts, ReadsBack Document.float Document.float? x) :
    ofText (s.prune c.document).write = .ok (s.settings c) ∧
      (s.settings c).validate = .ok () ∧ ofText c.document.write = .ok c := by
  have hnumber : ∀ x ∈ c.amounts, Scalar.isNumber x = true :=
    fun x hx => Document.isNumber_of_float? (hread x hx)
  have hworkable := workable_iff.mpr ⟨hvalid, hnumber⟩
  have hprune : ∀ s : Selection, ofText (s.prune c.document).write = .ok (s.settings c) := by
    intro s
    refine ofText_eq_ok_iff.mpr ⟨?_, (workable_iff.mp (workable_settings hworkable)).1⟩
    rw [Document.read?_write isWritten_prune, Option.bind_some, ofDocument?_prune hread]
  refine ⟨hprune s, (workable_iff.mp (workable_settings hworkable)).1, ?_⟩
  have h := hprune .everything
  rwa [prune_everything, Selection.settings_everything] at h

/-- Settings without their tick size and their section on buying power. -/
theorem ofText_prune_perUnit :
    let c : Config Float :=
      ⟨⟨"EUR", 5000⟩, ⟨3, 0.25, some 0.1⟩, .perUnit 0.005 1, ⟨2⟩, ⟨false⟩⟩
    let s : Selection :=
      ⟨fun name => name != "buying_power", fun name field => name == "fees" || field != "tick_size",
        fun _ => rfl⟩
    c.validate = .ok () ∧ (∀ x ∈ c.amounts, ReadsBack Document.float Document.float? x) ∧
      ofText (s.prune c.document).write =
        .ok ⟨⟨"EUR", 5000⟩, ⟨3, 0.01, some 0.1⟩, .perUnit 0.005 1, ⟨1⟩, ⟨false⟩⟩ := by
  intro c s
  have hvalid : c.validate = .ok () := by decide +kernel +zetaReduce
  have hread : ∀ x ∈ c.amounts, ReadsBack Document.float Document.float? x := by
    decide +kernel +zetaReduce
  have hsettings : s.settings c =
      ⟨⟨"EUR", 5000⟩, ⟨3, 0.01, some 0.1⟩, .perUnit 0.005 1, ⟨1⟩, ⟨false⟩⟩ := by
    decide +kernel +zetaReduce
  have h := (ofText_prune c s hvalid hread).1
  rw [hsettings] at h
  exact ⟨hvalid, hread, h⟩

end Config

end TradingDesk
