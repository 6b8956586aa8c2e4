import TradingDesk.Proofs.InstantText
import TradingDesk.Proofs.Rereading
/- Proofs.OrderText — orders and events are read back from their texts.

   Numbers and times are written as decimals and dates, and it is for those texts to give
   them back (`Legible`); the text of a time in the calendar does. Everything else that an
   order or an event is made of reads back by itself, and so do they as a whole. A document
   may present them in other ways than they are written: the kind with its tag anywhere
   (`OrderKind.Presented`), the fields in any order, marks left out that are not set, and
   other entries between. What stands beside a tag is held until the tag is known, so
   entries there have to be sound; entries of the order or the event itself may be
   anything. -/
namespace TradingDesk

/-! ## Kinds -/

namespace OrderKind

/-- The prices of a kind. -/
def prices {α : Type} : OrderKind α → List α
  | market | marketOnOpen | marketOnClose => []
  | limit price => [price]
  | stopMarket stop => [stop]
  | stopLimit stop price _ => [stop, price]

/-- A document that presents a kind inside `enclosing` levels: an object that has the tag and the
fields of the kind in any order. The mark of a stop may be missing where the stop was not reached,
and there may be other entries that can be held. -/
def Presented (enclosing : Nat) (k : OrderKind Float) : Document → Prop :=
  Document.Lists ((tag, .text k.documentName) :: k.documentFields)
    [("stop_triggered", .bool false)] fun e =>
      (e.1 ≠ tag ∧ e.2.isSound (Document.nestingBound - (enclosing + 1)) = true) ∧
        e.1 ∉ k.documentFields.map Prod.fst

variable {k : OrderKind Float}

theorem isWritten_document (k : OrderKind Float) : k.document.IsWritten := by
  rw [document, Document.isWritten_record]
  cases k <;> simp [documentFields, Document.isWritten_text, Document.isWritten_float,
    Document.isWritten_bool]

theorem presented_document (enclosing : Nat) : k.Presented enclosing k.document :=
  Document.lists_record

theorem nodup_documentFields : (k.documentFields.map Prod.fst).Nodup := by
  cases k <;> simp [documentFields]

theorem ne_tag_of_mem_documentFields {e : String × Document} (h : e ∈ k.documentFields) :
    e.1 ≠ tag := by
  revert e
  cases k <;> simp [documentFields, tag]

section

variable (hprices : ∀ x ∈ k.prices, ReadsBack Document.float Document.float? x)
include hprices

theorem isSound_documentFields {room : Nat} :
    ∀ e ∈ k.documentFields, e.2.isSound room = true := by
  have hsound : ∀ x ∈ k.prices, (Document.float x).isSound room = true :=
    fun x hx => Document.isSound_float (hprices x hx)
  cases k with
  | market | marketOnOpen | marketOnClose => exact List.forall_mem_nil _
  | limit price | stopMarket price =>
    exact List.forall_mem_singleton.mpr (hsound price List.mem_cons_self)
  | stopLimit stop price triggered =>
    obtain ⟨hstop, hprice⟩ := List.forall_mem_cons.mp hsound
    have hprice := List.forall_mem_singleton.mp hprice
    exact List.forall_mem_cons.mpr ⟨hstop, List.forall_mem_cons.mpr
      ⟨hprice, List.forall_mem_singleton.mpr rfl⟩⟩

theorem ofParts?_of_lists {others : String × Document → Prop} {rest : Document}
    (h : rest.Lists k.documentFields [("stop_triggered", .bool false)] others)
    (hothers : ∀ e, others e → e.1 ∉ k.documentFields.map Prod.fst) :
    ofParts? k.documentName rest = some k := by
  obtain ⟨f, hf, hfinds⟩ := h.finds _ nodup_documentFields
    (fun e he => List.mem_map_of_mem he) hothers
  have hread : ∀ {name x}, (name, Document.float x) ∈ k.documentFields → x ∈ k.prices →
      name ≠ "stop_triggered" → f.required name Document.float? = some x :=
    fun hmem hx hname => hfinds.reread _ hmem (by simp [hname]) (hprices _ hx)
  -- The names that are looked for are the fields of the kind at hand.
  cases k with
  | market | marketOnOpen | marketOnClose =>
    obtain ⟨listed, rfl, -⟩ := h
    rfl
  | limit price =>
    have hf : Fields.of? ["limit_price"] rest = some f := hf
    have hprice : f.required "limit_price" Document.float? = some price :=
      hread (by simp [documentFields]) (by simp [prices]) (by decide)
    simp [documentName, ofParts?, hf, hprice]
  | stopMarket stop =>
    have hf : Fields.of? ["stop_price"] rest = some f := hf
    have hstop : f.required "stop_price" Document.float? = some stop :=
      hread (by simp [documentFields]) (by simp [prices]) (by decide)
    simp [documentName, ofParts?, hf, hstop]
  | stopLimit stop price triggered =>
    have hf : Fields.of? ["stop_price", "limit_price", "stop_triggered"] rest = some f := hf
    have hstop : f.required "stop_price" Document.float? = some stop :=
      hread (by simp [documentFields]) (by simp [prices]) (by decide)
    have hprice : f.required "limit_price" Document.float? = some price :=
      hread (by simp [documentFields]) (by simp [prices]) (by decide)
    have htriggered : f.defaulted "stop_triggered" false Document.bool? = some triggered :=
      hfinds.flag (by simp [documentFields])
    simp [documentName, ofParts?, hf, hstop, hprice, htriggered]

theorem ofDocument?_of_presented {enclosing : Nat} {d : Document} (h : k.Presented enclosing d) :
    ofDocument? enclosing d = some k := by
  obtain ⟨rest, htagged, hrest⟩ := h.tagged?
    (fun e he => ⟨ne_tag_of_mem_documentFields he, isSound_documentFields hprices e he⟩)
    (fun e he => he.1) (by simp [tag])
  rw [ofDocument?, htagged, Option.bind_some]
  exact ofParts?_of_lists hprices hrest fun e he => he.2

end

end OrderKind

/-! ## Orders -/

theorem TimeInForce.isWritten_document (tif : TimeInForce) : tif.document.IsWritten := by
  cases tif with
  | goodTilCanceled | day => exact Document.isWritten_text _
  | goodTilDate expiry =>
    exact Document.isWritten_record.mpr
      (List.forall_mem_singleton.mpr (Document.isWritten_text _))

/-- Numbers and times that are read back from what is written of them. -/
structure Legible (amounts : List Float) (times : List Instant) : Prop where
  amount : ∀ x ∈ amounts, ReadsBack Document.float Document.float? x
  time : ∀ t ∈ times, ReadsBack Instant.document Instant.ofDocument? t

/-- The times of the calendar are always read back. -/
theorem Legible.of_inCalendar {amounts : List Float} {times : List Instant}
    (hamounts : ∀ x ∈ amounts, ReadsBack Document.float Document.float? x)
    (htimes : ∀ t ∈ times, t.InCalendar) : Legible amounts times :=
  ⟨hamounts, fun t ht => Instant.readsBack_of_inCalendar (htimes t ht)⟩

namespace Order

def amounts {α : Type} (o : Order α) : List α := o.quantity :: o.filled :: o.kind.prices

def times {α : Type} (o : Order α) : List Instant := o.time :: o.timeInForce.expiry?.toList

/-- The fields of an order in a document, where the kind may be presented in its own way. -/
def documentFields (o : Order Float) (kind : Document) : List (String × Document) :=
  [("id", o.id.document), ("symbol", .text o.symbol), ("quantity", .float o.quantity),
    ("kind", kind), ("time", o.time.document), ("status", o.status.document),
    ("filled_quantity", .float o.filled), ("time_in_force", o.timeInForce.document),
    ("tag", .text o.tag), ("broker_ids", .list Document.text o.brokerIds)]

/-- A document that presents an order: an object that has the fields in any order and perhaps
others. -/
def Presented (o : Order Float) (d : Document) : Prop :=
  ∃ kind, o.kind.Presented 1 kind ∧
    d.Lists (o.documentFields kind) [] fun e => e.1 ∉ fieldNames

variable {o : Order Float}

theorem isWritten_document (o : Order Float) : o.document.IsWritten := by
  rw [document, Document.isWritten_record]
  simp [Document.isWritten_text, Document.isWritten_float, o.kind.isWritten_document,
    o.timeInForce.isWritten_document, OrderId.document, Document.isWritten_natural,
    OrderStatus.document, Instant.document, Document.isWritten_list]

theorem nodup_fieldNames : fieldNames.Nodup := by decide

theorem presented_document : o.Presented o.document :=
  ⟨o.kind.document, OrderKind.presented_document 1, Document.lists_record⟩

theorem ofDocument?_of_presented (hlegible : Legible o.amounts o.times) {d : Document}
    (h : o.Presented d) : ofDocument? d = some o := by
  obtain ⟨kind, hkind, hlists⟩ := h
  obtain ⟨f, hf, hfinds⟩ := hlists.finds fieldNames nodup_fieldNames
    (by simp [documentFields, fieldNames]) fun _ he => he
  have hfield : ∀ {β : Type} {write : β → Document} {read : Document → Option β} {b : β}
      (name : String), (name, write b) ∈ o.documentFields kind → ReadsBack write read b →
        f.required name read = some b :=
    fun name hmem hread => hfinds.reread name hmem List.not_mem_nil hread
  have hid := hfield "id" (by simp [documentFields]) (ReadsBack.orderId o.id)
  have hsymbol := hfield "symbol" (by simp [documentFields]) (ReadsBack.text o.symbol)
  have hquantity := hfield "quantity" (by simp [documentFields])
    (hlegible.amount o.quantity (by simp [amounts]))
  have hkind : f.required "kind" (OrderKind.ofDocument? 1) = some o.kind :=
    (hfinds.required (by simp [documentFields]) List.not_mem_nil _).trans
      (OrderKind.ofDocument?_of_presented (fun x hx => hlegible.amount x (by simp [amounts, hx]))
        hkind)
  have htime := hfield "time" (by simp [documentFields])
    (hlegible.time o.time (by simp [times]))
  have hstatus := hfield "status" (by simp [documentFields])
    (ReadsBack.orderStatus o.status)
  have hfilled := hfield "filled_quantity" (by simp [documentFields])
    (hlegible.amount o.filled (by simp [amounts]))
  have hforce : f.required "time_in_force" TimeInForce.ofDocument? = some o.timeInForce :=
    hfield _ (by simp [documentFields])
      (ReadsBack.timeInForce fun t ht =>
        hlegible.time t (List.mem_cons_of_mem _ (Option.mem_toList.mpr ht)))
  have htag := hfield "tag" (by simp [documentFields]) (ReadsBack.text o.tag)
  have hbrokers : f.required "broker_ids" (Document.list? Document.text?) = some o.brokerIds :=
    hfield _ (by simp [documentFields]) (ReadsBack.list fun b _ => ReadsBack.text b)
  simp only [ofDocument?, hf, hid, hsymbol, hquantity, hkind, htime, hstatus, hfilled, hforce,
    htag, hbrokers, Option.bind_eq_bind, Option.bind_some]

end Order

/-! ## Events -/

namespace OrderEvent

def amounts {α : Type} (e : OrderEvent α) : List α := [e.fillPrice, e.fillQuantity, e.fee]

def times {α : Type} (e : OrderEvent α) : List Instant := [e.time]

def documentFields (e : OrderEvent Float) : List (String × Document) :=
  [("order_id", e.orderId.document), ("symbol", .text e.symbol), ("time", e.time.document),
    ("status", e.status.document), ("fill_price", .float e.fillPrice),
    ("fill_quantity", .float e.fillQuantity), ("fee", .float e.fee),
    ("message", .option Document.text e.message), ("is_update", .bool e.isUpdate)]

/-- A document that presents an event: an object that has the fields in any order and perhaps
others. The mark of an acknowledgement may be missing where there is none. -/
def Presented (e : OrderEvent Float) : Document → Prop :=
  Document.Lists e.documentFields [("is_update", .bool false)] fun f => f.1 ∉ fieldNames

variable {e : OrderEvent Float}

theorem isWritten_document (e : OrderEvent Float) : e.document.IsWritten := by
  rw [document, Document.isWritten_record]
  simp [Document.isWritten_text, Document.isWritten_float, OrderId.document,
    Document.isWritten_natural, OrderStatus.document, Instant.document, Document.isWritten_option,
    Document.isWritten_bool]

theorem nodup_fieldNames : fieldNames.Nodup := by decide

theorem presented_document : e.Presented e.document := Document.lists_record

theorem ofDocument?_of_presented (hlegible : Legible e.amounts e.times) {d : Document}
    (h : e.Presented d) : ofDocument? d = some e := by
  obtain ⟨f, hf, hfinds⟩ := h.finds fieldNames nodup_fieldNames
    (by simp [documentFields, fieldNames]) fun _ he => he
  have hfield : ∀ {β : Type} {write : β → Document} {read : Document → Option β} {b : β}
      (name : String), (name, write b) ∈ e.documentFields → name ≠ "is_update" →
        ReadsBack write read b → f.required name read = some b :=
    fun name hmem hname hread => hfinds.reread name hmem (by simp [hname]) hread
  have hid := hfield "order_id" (by simp [documentFields]) (by decide)
    (ReadsBack.orderId e.orderId)
  have hsymbol := hfield "symbol" (by simp [documentFields]) (by decide)
    (ReadsBack.text e.symbol)
  have htime := hfield "time" (by simp [documentFields]) (by decide)
    (hlegible.time e.time (by simp [times]))
  have hstatus := hfield "status" (by simp [documentFields]) (by decide)
    (ReadsBack.orderStatus e.status)
  have hprice := hfield "fill_price" (by simp [documentFields]) (by decide)
    (hlegible.amount e.fillPrice (by simp [amounts]))
  have hquantity := hfield "fill_quantity" (by simp [documentFields]) (by decide)
    (hlegible.amount e.fillQuantity (by simp [amounts]))
  have hfee := hfield "fee" (by simp [documentFields]) (by decide)
    (hlegible.amount e.fee (by simp [amounts]))
  have hmessage : f.optional "message" Document.text? = some e.message :=
    (hfinds.optional (by simp [documentFields]) (by simp) _).trans
      (ReadsBack.option rfl fun b _ => ReadsBack.text b)
  have hupdate : f.defaulted "is_update" false Document.bool? = some e.isUpdate :=
    hfinds.flag (by simp [documentFields])
  simp only [ofDocument?, hf, hid, hsymbol, htime, hstatus, hprice, hquantity, hfee, hmessage,
    hupdate, Option.bind_eq_bind, Option.bind_some]

end OrderEvent

/-! ## Texts -/

/-- An order and an event whose numbers and times are read back are read back themselves from
their texts, whatever their kind, status and strings. The same values are read from every document
that presents them: with the fields and the tag of the kind in any order, without marks that are
not set, and with entries that are no fields. -/
theorem orders_events_reread (o : Order Float) (e : OrderEvent Float)
    (ho : Legible o.amounts o.times) (he : Legible e.amounts e.times) :
    ((Document.read? o.document.write).bind Order.ofDocument? = some o ∧
      ∀ d, o.Presented d → Order.ofDocument? d = some o ∧
        (d.IsWritten → (Document.read? d.write).bind Order.ofDocument? = some o)) ∧
    (Document.read? e.document.write).bind OrderEvent.ofDocument? = some e ∧
      ∀ d, e.Presented d → OrderEvent.ofDocument? d = some e ∧
        (d.IsWritten → (Document.read? d.write).bind OrderEvent.ofDocument? = some e) := by
  have horder : ∀ d, o.Presented d → Order.ofDocument? d = some o ∧
      (d.IsWritten → (Document.read? d.write).bind Order.ofDocument? = some o) := by
    intro d hd
    have hread := Order.ofDocument?_of_presented ho hd
    exact ⟨hread, fun hwritten => by rw [Document.read?_write hwritten, Option.bind_some, hread]⟩
  have hevent : ∀ d, e.Presented d → OrderEvent.ofDocument? d = some e ∧
      (d.IsWritten → (Document.read? d.write).bind OrderEvent.ofDocument? = some e) := by
    intro d hd
    have hread := OrderEvent.ofDocument?_of_presented he hd
    exact ⟨hread, fun hwritten => by rw [Document.read?_write hwritten, Option.bind_some, hread]⟩
  exact ⟨⟨(horder _ Order.presented_document).2 o.isWritten_document, horder⟩,
    (hevent _ OrderEvent.presented_document).2 e.isWritten_document, hevent⟩

/-- A stop-limit order whose kind stands with the tag in the middle, without its mark, and with a
note. -/
theorem orders_events_reread_stopLimit :
    let o : Order Float :=
      { id := 18446744073709551615, symbol := "\"é\"\n", quantity := -12.5
        kind := .stopLimit 101.25 100.01 false, time := .ofSecond 1700000000 500
        status := .partiallyFilled, filled := -2
        timeInForce := .goodTilDate (.ofSecond 1800000000 0), brokerIds := ["a", "\t"] }
    let e : OrderEvent Float :=
      ⟨7, "B", .ofSecond 1700000000 0, .filled, 100.01, 3, 0.1, some "\\", true⟩
    let kind := Document.record [("limit_price", .float 100.01), ("note", .array [.null]),
      ("type", .text "stop_limit"), ("stop_price", .float 101.25)]
    Legible o.amounts o.times ∧ Legible e.amounts e.times ∧ o.kind.Presented 1 kind ∧
      (Document.read? o.document.write).bind Order.ofDocument? = some o ∧
      (Document.read? e.document.write).bind OrderEvent.ofDocument? = some e ∧
      Order.ofDocument? (.record (("venue", .null) :: o.documentFields kind)) = some o := by
  intro o e kind
  have ho : Legible o.amounts o.times :=
    .of_inCalendar (by decide +kernel +zetaReduce) (by decide +kernel +zetaReduce)
  have he : Legible e.amounts e.times :=
    .of_inCalendar (by decide +kernel +zetaReduce) (by decide +kernel +zetaReduce)
  have hkind : o.kind.Presented 1 kind := by
    refine ⟨_, rfl, [("type", .text "stop_limit"), ("stop_price", .float 101.25),
      ("limit_price", .float 100.01)], [("note", .array [.null])], ?_, ?_, ?_, ?_⟩
    · exact @List.perm_append_comm _ [_, _] [_, _]
    · exact List.sublist_append_left _ [("stop_triggered", Document.bool false)]
    · simp [o, OrderKind.documentFields, OrderKind.documentName, OrderKind.tag]
    · exact List.forall_mem_singleton.mpr ⟨⟨by decide, by decide⟩, by decide⟩
  have horder : o.Presented (.record (("venue", .null) :: o.documentFields kind)) := by
    refine ⟨kind, hkind, _, rfl, o.documentFields kind, [("venue", .null)], ?_, List.Sublist.refl _,
      fun _ h => .inl h, List.forall_mem_singleton.mpr (by decide)⟩
    exact @List.perm_append_comm _ [_] _
  obtain ⟨⟨hread, hpresented⟩, hevent, -⟩ := orders_events_reread o e ho he
  exact ⟨ho, he, hkind, hread, hevent, (hpresented _ horder).1⟩

end TradingDesk
