import TradingDesk.Account.Portfolio
import TradingDesk.Account.Power
import TradingDesk.Config
import TradingDesk.Decimal.Binary64
import TradingDesk.Decimal.Layout
import TradingDesk.Decimal.Numeral
import TradingDesk.Decimal.Places
import TradingDesk.Decimal.Reading
import TradingDesk.Decimal.Rounding
import TradingDesk.Decimal.Shortest
import TradingDesk.Desk
import TradingDesk.Document.AccountForm
import TradingDesk.Document.Basic
import TradingDesk.Document.Choice
import TradingDesk.Document.ConfigForm
import TradingDesk.Document.Fields
import TradingDesk.Document.MarketForm
import TradingDesk.Document.Number
import TradingDesk.Document.OrderForm
import TradingDesk.Document.Reading
import TradingDesk.Document.Writing
import TradingDesk.Feed
import TradingDesk.Ledger
import TradingDesk.Market.Board
import TradingDesk.Market.Snapshot
import TradingDesk.Model.Fee
import TradingDesk.Model.Fill
import TradingDesk.Model.Participation
import TradingDesk.Model.Scripted
import TradingDesk.Model.Suite
import TradingDesk.Model.Trial
import TradingDesk.Order.Basic
import TradingDesk.Order.Check
import TradingDesk.Order.Event
import TradingDesk.Order.Status
import TradingDesk.Pass
import TradingDesk.Scalar.Basic
import TradingDesk.Scalar.Exact
import TradingDesk.Scalar.Floating
import TradingDesk.Table
import TradingDesk.Time.Blank
import TradingDesk.Time.Calendar
import TradingDesk.Time.Instant
import TradingDesk.Time.Reading
import TradingDesk.Time.Written
import TradingDesk.Proofs.Ledger
import TradingDesk.Proofs.Visit
import TradingDesk.Proofs.Request
import TradingDesk.Proofs.Docket
import TradingDesk.Proofs.Run
import TradingDesk.Proofs.Rules
import TradingDesk.Proofs.Pending
import TradingDesk.Proofs.Lifecycle
import TradingDesk.Proofs.Journal
import TradingDesk.Proofs.Exact
import TradingDesk.Proofs.Progress
import TradingDesk.Proofs.Position
import TradingDesk.Proofs.Reconciled
import TradingDesk.Proofs.Allowance
import TradingDesk.Proofs.Fault
import TradingDesk.Proofs.Isolation
import TradingDesk.Proofs.Spending
import TradingDesk.Proofs.Frame
import TradingDesk.Proofs.Gates
import TradingDesk.Proofs.Admission
import TradingDesk.Proofs.Tradable
import TradingDesk.Proofs.Accounting
import TradingDesk.Proofs.Fees
import TradingDesk.Proofs.Funding
import TradingDesk.Proofs.Buying
import TradingDesk.Proofs.Solvency
import TradingDesk.Proofs.FillStage
import TradingDesk.Proofs.Timing
import TradingDesk.Proofs.Chronology
import TradingDesk.Proofs.Lockstep
import TradingDesk.Proofs.Settling
import TradingDesk.Proofs.Standstill
import TradingDesk.Proofs.Looks
import TradingDesk.Proofs.StopLimit
import TradingDesk.Proofs.FillPrice
import TradingDesk.Proofs.Margin
import TradingDesk.Proofs.TriggerBar
import TradingDesk.Proofs.PartialFills
import TradingDesk.Proofs.PositivePrice
import TradingDesk.Proofs.Affordable
import TradingDesk.Proofs.Floating
import TradingDesk.Proofs.Mirror
import TradingDesk.Proofs.NotANumber
import TradingDesk.Proofs.Editing
import TradingDesk.Proofs.Calls
import TradingDesk.Proofs.Independence
import TradingDesk.Proofs.AveragePrice
import TradingDesk.Proofs.Rounding
import TradingDesk.Proofs.Records
import TradingDesk.Proofs.Bounds
import TradingDesk.Proofs.Numerals
import TradingDesk.Proofs.WrittenText
import TradingDesk.Proofs.Rereading
import TradingDesk.Proofs.InstantText
import TradingDesk.Proofs.OrderText
import TradingDesk.Proofs.PartialSettings
