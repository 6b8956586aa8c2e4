import Mathlib.Algebra.Order.Field.Rat
import TradingDesk.Account.Power
import TradingDesk.Proofs.Exact
import TradingDesk.Proofs.Table
/- Proofs.Position — what an event does to the quantities that an account holds.

   Whatever branch a fill takes in the account, whether it joins a position,
   reduces it or takes it through zero, the quantity it leaves is the old one and
   the quantity of the fill, and a quantity that does not count is dropped
   (`quantity?_applyFill`). Everything else that can happen to an account leaves
   the quantities alone.

   `Holds` says of an account that it holds given net quantities exactly. Over the
   rationals a fill keeps this with the net quantities it makes, as long as none of
   them is too small to count without being zero. -/
namespace TradingDesk

/-! ## Sums over tables -/

namespace Table

variable {κ υ : Type} [Ord κ] [Std.TransOrd κ] [Std.LawfulEqOrd κ]

/-- Filing a record takes what the record of its key adds to a sum away, and adds what it adds
itself. -/
theorem sum_insert (t : Table κ υ) (k : κ) (v : υ) (f : υ → Rat) :
    ((t.insert k v).values.map f).sum + ((t.get? k).map f).getD 0 =
      (t.values.map f).sum + f v := by
  obtain ⟨entries, ascending⟩ := t
  simp only [insert, values, get?, List.map_map, Option.map_map]
  induction entries with
  | nil => simp [insertEntry]
  | cons e rest ih =>
    have hrest : ∀ e' ∈ rest, compare e.1 e'.1 = .lt :=
      fun e' he => List.rel_of_pairwise_cons ascending he
    rw [insertEntry]
    cases hc : compare k e.1 with
    | lt =>
      -- the keys that follow are greater still, so the key is new
      have hne : ∀ e' ∈ e :: rest, ¬ e'.1 = k := by
        rintro e' he' rfl
        rcases List.mem_cons.mp he' with rfl | he'
        · simp at hc
        · have hself := Std.TransCmp.lt_trans hc (hrest e' he')
          simp at hself
      have hfind : (e :: rest).find? (fun e' => compare e'.1 k == .eq) = none := by
        rw [List.find?_eq_none]
        intro e' he'
        simpa using hne e' he'
      rw [hfind]
      simp only [List.map_cons, List.sum_cons, Option.map_none, Option.getD_none,
        Function.comp_apply]
      linarith
    | eq =>
      obtain rfl : k = e.1 := Std.LawfulEqOrd.eq_of_compare hc
      simp only [List.find?_cons, Std.compare_self, beq_self_eq_true, Option.map_some,
        Option.getD_some, List.map_cons, List.sum_cons, Function.comp_apply]
      linarith
    | gt =>
      have hne : ¬ e.1 = k := by
        rintro rfl
        simp at hc
      have hfind : (e :: rest).find? (fun e' => compare e'.1 k == .eq) =
          rest.find? fun e' => compare e'.1 k == .eq := by
        simp [hne]
      have hih := ih ascending.of_cons
      rw [hfind]
      simp only [List.map_cons, List.sum_cons] at hih ⊢
      linarith

omit [Std.TransOrd κ] in
/-- Dropping a record takes what it adds to a sum away. -/
theorem sum_erase (t : Table κ υ) (k : κ) (f : υ → Rat) :
    ((t.erase k).values.map f).sum + ((t.get? k).map f).getD 0 = (t.values.map f).sum := by
  obtain ⟨entries, ascending⟩ := t
  simp only [erase, values, get?, List.map_map, Option.map_map]
  induction entries with
  | nil => simp
  | cons e rest ih =>
    have hih := ih ascending.of_cons
    by_cases he : e.1 = k
    · -- the keys that follow are greater, so none of their records is dropped
      have hrest : rest.filter (fun e' => compare e'.1 k != .eq) = rest := by
        apply List.filter_eq_self.mpr
        intro e' he'
        have hlt : compare e.1 e'.1 = .lt := List.rel_of_pairwise_cons ascending he'
        have hne : ¬ e'.1 = k := by
          rintro rfl
          simp [he] at hlt
        simpa using hne
      have hfilter : (e :: rest).filter (fun e' => compare e'.1 k != .eq) = rest := by
        simpa [he] using hrest
      rw [hfilter]
      simp only [List.find?_cons, he, Std.compare_self, beq_self_eq_true, Option.map_some,
        Option.getD_some, List.map_cons, List.sum_cons, Function.comp_apply]
      linarith
    · have hfilter : (e :: rest).filter (fun e' => compare e'.1 k != .eq) =
          e :: rest.filter fun e' => compare e'.1 k != .eq := by
        simp [he]
      have hfind : (e :: rest).find? (fun e' => compare e'.1 k == .eq) =
          rest.find? fun e' => compare e'.1 k == .eq := by
        simp [he]
      rw [hfilter, hfind]
      simp only [List.map_cons, List.sum_cons] at hih ⊢
      linarith

omit [Std.TransOrd κ] [Std.LawfulEqOrd κ] in
/-- What a change of one record leaves alone of every record, it leaves alone of the table. -/
theorem map_values_adjust {β : Type} (t : Table κ υ) (k : κ) {g : υ → υ} {f : υ → β}
    (h : ∀ v, f (g v) = f v) : (t.adjust k g).values.map f = t.values.map f := by
  simp only [adjust, values, List.map_map]
  apply List.map_congr_left
  intro e _
  simp only [Function.comp_apply]
  split
  · exact h e.2
  · rfl

end Table

namespace OrderEvent

variable {e : OrderEvent Rat}

/-- An event is a fill when its quantity counts. -/
theorem isFill_iff : e.isFill = true ↔ Scalar.tolerance ≤ |e.fillQuantity| := by
  rw [isFill, decide_eq_true_iff, Scalar.abs_rat]

theorem isFill_of_zero (h : e.fillQuantity = 0) : e.isFill = false := by
  rw [← Bool.not_eq_true, isFill_iff, h, abs_zero, not_le]
  exact Scalar.tolerance_pos

end OrderEvent

variable {α : Type}

namespace Portfolio

/-- The signed quantity of the open position in a symbol. -/
def quantity? (p : Portfolio α) (symbol : String) : Option α :=
  (p.positions.get? symbol).map Position.quantity

theorem holdings_symbols (p : Portfolio α) : p.holdings.map Holding.symbol = p.positions.keys := by
  simp [holdings, Table.keys]

theorem mem_holdings {p : Portfolio α} {symbol : String} :
    symbol ∈ p.holdings.map Holding.symbol ↔ (p.quantity? symbol).isSome = true := by
  rw [holdings_symbols, Table.mem_keys_iff, Table.contains, quantity?, Option.isSome_map]

/-- An account lists no symbol twice. -/
theorem holdings_nodup (p : Portfolio α) : (p.holdings.map Holding.symbol).Nodup := by
  rw [holdings_symbols]
  exact p.positions.keys_nodup

theorem quantity?_mark (p : Portfolio α) (symbol : String) (price : α) (s : String) :
    (p.mark symbol price).quantity? s = p.quantity? s := by
  unfold quantity? mark
  by_cases hs : s = symbol
  · subst hs
    rw [Table.get?_adjust_self, Option.map_map]
    rfl
  · rw [Table.get?_adjust_of_ne _ _ hs]

variable [Scalar α] {p : Portfolio α}

theorem quantityHeld_eq (p : Portfolio α) (symbol : String) :
    p.quantityHeld symbol = (p.quantity? symbol).getD 0 := rfl

/-- The position that a fill is applied to has the quantity held, a flat one none. -/
theorem position_quantity (p : Portfolio α) (symbol : String) :
    (p.position symbol).quantity = p.quantityHeld symbol := by
  unfold position quantityHeld
  cases p.positions.get? symbol with
  | none => rfl
  | some held => rfl

/-! ## The quantities after an event -/

theorem get?_hold (p : Portfolio α) (symbol : String) (held : Position α) (s : String) :
    (p.hold symbol held).positions.get? s =
      if s = symbol then if held.isFlat then none else some held
      else p.positions.get? s := by
  unfold hold
  by_cases hs : s = symbol
  · subst hs
    rw [if_pos rfl]
    split
    · exact Table.get?_erase_self _ _
    · exact Table.get?_insert_self _ _ _
  · rw [if_neg hs]
    split
    · exact Table.get?_erase_of_ne _ hs
    · exact Table.get?_insert_of_ne _ _ hs

theorem quantity?_hold (p : Portfolio α) (symbol : String) (held : Position α) (s : String) :
    (p.hold symbol held).quantity? s =
      if s = symbol then if held.isFlat then none else some held.quantity
      else p.quantity? s := by
  rw [quantity?, get?_hold]
  by_cases hs : s = symbol
  · rw [if_pos hs, if_pos hs]
    split <;> rfl
  · rw [if_neg hs, if_neg hs]
    rfl

theorem applyFill_of_not_fill {e : OrderEvent α} (h : e.isFill = false) : p.applyFill e = p := by
  rw [applyFill, h]
  rfl

/-- A fill takes its amount and its fee out of the cash, whatever it does to the position. -/
theorem cash_applyFill_of_fill {e : OrderEvent α} (h : e.isFill = true) :
    (p.applyFill e).cash = p.cash - (e.fillQuantity * e.fillPrice + e.fee) := by
  simp only [applyFill, h, if_true]
  split <;> rfl

/-- A fill adds its quantity to what is held of its symbol. What does not count is dropped, and
other symbols are left alone. -/
theorem quantity?_applyFill {e : OrderEvent α} (h : e.isFill = true) (s : String) :
    (p.applyFill e).quantity? s =
      if s = e.symbol then
        if Scalar.negligible (p.quantityHeld e.symbol + e.fillQuantity) then none
        else some (p.quantityHeld e.symbol + e.fillQuantity)
      else p.quantity? s := by
  have hheld := p.position_quantity e.symbol
  rw [applyFill, if_pos h]
  simp only
  split
  · -- the fill joins the position
    have hq : ((p.position e.symbol).join e.fillQuantity e.fillPrice).quantity =
        p.quantityHeld e.symbol + e.fillQuantity := by
      rw [Position.join, hheld]
    rw [quantity?_hold, Position.isFlat, hq]
    rfl
  · -- the fill is against the position; the trade it closes holds nothing
    have hq : ((p.position e.symbol).reduce e.fillQuantity e.fillPrice).quantity =
        p.quantityHeld e.symbol + e.fillQuantity := by
      rw [Position.reduce, hheld]
    show ((p.pay e).hold e.symbol _).quantity? s = _
    rw [quantity?_hold, Position.isFlat, hq]
    rfl

/-! ## Accounts that hold net quantities -/

/-- The account's open positions are the net quantities that are not zero. -/
def Holds (p : Portfolio Rat) (net : String → Rat) : Prop :=
  ∀ symbol, p.quantity? symbol = if net symbol = 0 then none else some (net symbol)

theorem holds_ofCash (currency : String) (cash : Rat) :
    (ofCash currency cash).Holds fun _ => 0 := by
  intro symbol
  rw [if_pos rfl]
  rfl

namespace Holds

variable {p : Portfolio Rat} {net net' : String → Rat}

theorem quantityHeld (h : p.Holds net) (symbol : String) : p.quantityHeld symbol = net symbol := by
  rw [quantityHeld_eq, h symbol]
  by_cases hz : net symbol = 0
  · rw [if_pos hz, hz]; rfl
  · rw [if_neg hz]; rfl

theorem mem_holdings (h : p.Holds net) (symbol : String) :
    symbol ∈ p.holdings.map Holding.symbol ↔ net symbol ≠ 0 := by
  rw [Portfolio.mem_holdings, h symbol]
  by_cases hz : net symbol = 0
  · simp [hz]
  · simp [hz]

theorem mark (h : p.Holds net) (symbol : String) (price : Rat) :
    (p.mark symbol price).Holds net := by
  intro s
  rw [quantity?_mark]
  exact h s

/-- A fill keeps the account holding the net quantities, where the one it makes is zero or
counts. -/
theorem applyFill {e : OrderEvent Rat} (h : p.Holds net) (he : e.isFill = true)
    (hnet : ∀ s, net' s = net s + if s = e.symbol then e.fillQuantity else 0)
    (hcounts : net' e.symbol = 0 ∨ Scalar.tolerance ≤ |net' e.symbol|) :
    (p.applyFill e).Holds net' := by
  intro s
  rw [quantity?_applyFill he]
  by_cases hs : s = e.symbol
  · have hsum : p.quantityHeld e.symbol + e.fillQuantity = net' e.symbol := by
      rw [hnet, if_pos rfl, h.quantityHeld]
    rw [if_pos hs, hsum, hs]
    rcases hcounts with hz | hcounts
    · have hn : Scalar.negligible (0 : Rat) = true := by
        rw [Scalar.negligible_iff, abs_zero]
        exact Scalar.tolerance_pos
      rw [hz, if_pos hn, if_pos rfl]
    · have hn : ¬ Scalar.negligible (net' e.symbol) = true := by
        rw [Scalar.negligible_iff]
        exact not_lt.mpr hcounts
      rw [if_neg hn, if_neg (Scalar.ne_zero_of_tolerance_le hcounts)]
  · have hsame : net' s = net s := by rw [hnet, if_neg hs, add_zero]
    rw [if_neg hs, h s, hsame]

end Holds

end Portfolio

end TradingDesk
