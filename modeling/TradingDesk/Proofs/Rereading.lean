import TradingDesk.Document.OrderForm
import TradingDesk.Proofs.Records
import TradingDesk.Proofs.WrittenText
/- Proofs.Rereading — values that are read back from what is written of them.

   A value reads back if reading what is written of it gives the value (`ReadsBack`). Ids,
   statuses and texts always do; a list or an optional value does if its parts do. A field
   that reads back is found wherever it stands in an object (`Fields.Finds.reread`), and
   an alternative under a tag is told by its tag wherever that stands
   (`Document.Lists.tagged?`). -/
namespace TradingDesk

open Decimal

/-! ## Plain values -/

/-- The instant of a time in force. -/
def TimeInForce.expiry? : TimeInForce → Option Instant
  | goodTilCanceled | day => none
  | goodTilDate expiry => some expiry

/-- What is written of a value reads as that value. -/
def ReadsBack {β : Type} (write : β → Document) (read : Document → Option β) (b : β) : Prop :=
  read (write b) = some b

instance {β : Type} [DecidableEq β] (write : β → Document) (read : Document → Option β) (b : β) :
    Decidable (ReadsBack write read b) :=
  inferInstanceAs (Decidable (_ = _))

namespace ReadsBack

variable {β : Type} {write : β → Document} {read : Document → Option β}

theorem text (s : String) : ReadsBack Document.text Document.text? s := rfl

theorem bool (b : Bool) : ReadsBack Document.bool Document.bool? b := rfl

theorem natural {n bound : Nat} (h : n < bound) :
    ReadsBack Document.natural (·.natural? bound) n := by
  show Numeral.natural? bound (Numeral.ofNat n) = some n
  unfold Numeral.natural?
  rw [if_neg (by simp [Numeral.ofNat])]
  dsimp only [Numeral.ofNat]
  rw [digitsNat_toDigits, if_pos h]

theorem orderId (id : OrderId) : ReadsBack OrderId.document OrderId.ofDocument? id := by
  have hnatural : (Document.natural id.toNat).natural? UInt64.size = some id.toNat :=
    natural id.toNat_lt_size
  show ((Document.natural id.toNat).natural? UInt64.size).map UInt64.ofNat = some id
  rw [hnatural, Option.map_some, UInt64.ofNat_toNat]

theorem orderStatus (s : OrderStatus) :
    ReadsBack OrderStatus.document OrderStatus.ofDocument? s := by
  cases s <;> rfl

theorem timeInForce {tif : TimeInForce}
    (h : ∀ t ∈ tif.expiry?, ReadsBack Instant.document Instant.ofDocument? t) :
    ReadsBack TimeInForce.document TimeInForce.ofDocument? tif := by
  cases tif with
  | goodTilCanceled => rfl
  | day => rfl
  | goodTilDate expiry =>
    show (Instant.ofDocument? expiry.document).map TimeInForce.goodTilDate = _
    rw [show Instant.ofDocument? expiry.document = some expiry from h expiry rfl]
    rfl

theorem list {bs : List β} (h : ∀ b ∈ bs, ReadsBack write read b) :
    ReadsBack (Document.list write) (Document.list? read) bs := by
  show (bs.map write).mapM read = some bs
  induction bs with
  | nil => rfl
  | cons b bs ih =>
    rw [List.forall_mem_cons] at h
    rw [List.map_cons, List.mapM_cons, show read (write b) = some b from h.1, ih h.2]
    rfl

/-- Null must not be a value, since it stands for a value that is missing. -/
theorem option {b : Option β} (hnull : read .null = none) (h : ∀ b' ∈ b, ReadsBack write read b') :
    ReadsBack (Document.option write) (Document.option? read) b := by
  cases b with
  | none => rfl
  | some b =>
    have hread : read (write b) = some b := h b rfl
    show Document.option? read (write b) = _
    unfold Document.option?
    split
    · next heq =>
      rw [heq, hnull] at hread
      cases hread
    · rw [hread, Option.map_some]

end ReadsBack

/-- A field that is found is read back. -/
theorem Fields.Finds.reread {β : Type} {write : β → Document} {read : Document → Option β} {b : β}
    {f : Fields} {fields defaults : List (String × Document)} (h : f.Finds fields defaults)
    (name : String) (hmem : (name, write b) ∈ fields) (hdefault : (name, write b) ∉ defaults)
    (hread : ReadsBack write read b) :
    f.required name read = some b :=
  (h.required hmem hdefault read).trans hread

/-- A mark that is missing where it is not set is read back. -/
theorem Fields.Finds.flag {b : Bool} {f : Fields} {fields : List (String × Document)}
    {name : String} (h : f.Finds fields [(name, .bool false)]) (hmem : (name, .bool b) ∈ fields) :
    f.defaulted name false Document.bool? = some b := by
  refine (h.defaulted hmem fun hdefault => ?_).trans (ReadsBack.bool b)
  obtain ⟨-, hfalse⟩ := Prod.mk.inj (List.mem_singleton.mp hdefault)
  exact congrArg some (Document.bool.inj hfalse)

namespace Document

/-! ## Values that can be held -/

theorem areSoundEntries_record {room : Nat} {fields : List (String × Document)} :
    areSoundEntries room (fields.map fun f => (some f.1, f.2)) = true ↔
      ∀ f ∈ fields, f.2.isSound room = true := by
  induction fields with
  | nil => simp [areSoundEntries]
  | cons f fields ih =>
    rw [List.map_cons, areSoundEntries, Option.isSome_some, Bool.true_and, Bool.and_eq_true, ih,
      List.forall_mem_cons]

theorem isSound_float {room : Nat} {x : Float} (h : ReadsBack float float? x) :
    (float x).isSound room = true := by
  have hread : (float x).float? = some x := h
  revert hread
  cases float x with
  | number n =>
    intro hread
    rw [isSound, show n.float? = some x from hread, Option.isSome_some]
  | null => exact fun hread => by cases hread
  | bool _ => exact fun hread => by cases hread
  | string _ => exact fun hread => by cases hread
  | array _ => exact fun hread => by cases hread
  | object _ => exact fun hread => by cases hread

/-! ## Tags -/

theorem splitTag_absent {tag : String} {listed : List (String × Document)}
    (h : ∀ e ∈ listed, e.1 ≠ tag) :
    splitTag tag (listed.map fun e => (some e.1, e.2)) =
      some (none, listed.map fun e => (some e.1, e.2)) := by
  induction listed with
  | nil => rfl
  | cons e listed ih =>
    rw [List.forall_mem_cons] at h
    rw [List.map_cons, splitTag, ih h.2]
    dsimp only
    rw [if_neg fun heq => h.1 (Option.some.inj heq)]

/-- A tag that comes once is found wherever it stands. -/
theorem splitTag_record {tag name : String} {before after : List (String × Document)}
    (h : ∀ e ∈ before ++ after, e.1 ≠ tag) :
    splitTag tag ((before ++ (tag, text name) :: after).map fun e => (some e.1, e.2)) =
      some (some name, (before ++ after).map fun e => (some e.1, e.2)) := by
  induction before with
  | nil =>
    rw [List.nil_append] at h
    rw [List.nil_append, List.nil_append, List.map_cons, splitTag, splitTag_absent h]
    dsimp only
    rw [if_pos rfl]
    rfl
  | cons e before ih =>
    rw [List.cons_append, List.forall_mem_cons] at h
    rw [List.cons_append, List.map_cons, splitTag, ih h.2]
    dsimp only
    rw [if_neg fun heq => h.1 (Option.some.inj heq)]
    rfl

/-- A record under a tag is split into the tag and a record that lists the same fields. -/
theorem Lists.tagged? {tag name : String} {enclosing : Nat}
    {fields defaults : List (String × Document)} {others : String × Document → Prop} {d : Document}
    (h : d.Lists ((tag, text name) :: fields) defaults others)
    (hfields : ∀ e ∈ fields, e.1 ≠ tag ∧ e.2.isSound (nestingBound - (enclosing + 1)) = true)
    (hothers : ∀ e, others e → e.1 ≠ tag ∧ e.2.isSound (nestingBound - (enclosing + 1)) = true)
    (hdefaults : (tag, text name) ∉ defaults) :
    ∃ rest, d.tagged? tag enclosing = some (name, rest) ∧ rest.Lists fields defaults others := by
  obtain ⟨listed, rfl, hlisted⟩ := h
  obtain ⟨before, after, rfl, hrest⟩ :=
    hlisted.take_out (fun hmem => (hfields _ hmem).1 rfl) hdefaults
  have hall := hrest.forall_mem hfields hothers
  refine ⟨record (before ++ after), ?_, _, rfl, hrest⟩
  rw [record, Document.tagged?, splitTag_record fun e he => (hall e he).1]
  dsimp only
  rw [if_pos (areSoundEntries_record.mpr fun e he => (hall e he).2)]
  rfl

end Document

end TradingDesk
