import Mathlib.Data.List.Basic

/-! Watch channels, as tokio has them. A channel holds one value; its sender replaces it, and any
    number of receivers look at it or wait until it has been replaced since they last looked. When
    the sender is dropped the channel is closed: receivers still see the last value, but a receiver
    that has seen it is told so instead of waiting on. All channels that a process has made are kept
    in one list, so that a handle stays good for the life of the process. -/

namespace Distribd.Schemes

variable {α : Type*}

/-- The value, how often it has been replaced, and whether the sender is gone. -/
structure Channel (α : Type*) where
  value : α
  version : ℕ
  closed : Bool
  deriving DecidableEq

/-- The channels of a process; a handle is a place in the list. -/
abbrev Channels (α : Type*) := List (Channel α)

/-- A receiver: its channel, and the version it has seen. -/
structure Receiver where
  channel : ℕ
  seen : ℕ
  deriving DecidableEq

/-- How a wait for a change stands. -/
inductive Wait where | changed | closed | pending
  deriving DecidableEq, Repr

namespace Channels

variable (cs : Channels α) (i j : ℕ) (v : α)

/-- `watch::channel(v)`; the new handle is the length of the list. -/
def create : Channels α := cs ++ [⟨v, 0, false⟩]

/-- `Sender::send_replace(v)`. -/
def sendReplace : Channels α :=
  cs.modify i fun c => { c with value := v, version := c.version + 1 }

/-- The sender is dropped. -/
def dropSender : Channels α := cs.modify i fun c => { c with closed := true }

/-- `borrow`: the value, for senders and receivers alike. -/
def borrow : Option α := cs[i]?.map Channel.value

/-- The channel is there and its sender is not gone. -/
def isOpen : Bool := cs[i]?.any (!·.closed)

/-- `Sender::subscribe`, and `borrow_and_update` on a receiver of the channel: the latest version
    counts as seen. -/
def subscribe : Receiver := ⟨i, (cs[i]?.map Channel.version).getD 0⟩

/-- `Receiver::changed`: a version not seen yet comes before the end of the channel. -/
def changed (r : Receiver) : Wait :=
  match cs[r.channel]? with
  | some c => if c.version ≠ r.seen then .changed else if c.closed then .closed else .pending
  | none => .closed

theorem getElem?_create :
    (cs.create v)[i]? = if i = cs.length then some ⟨v, 0, false⟩ else cs[i]? := by
  unfold create
  rcases Nat.lt_trichotomy i cs.length with hlt | rfl | hgt
  · rw [List.getElem?_append_left hlt, if_neg (by omega)]
  · simp
  · rw [if_neg (by omega), List.getElem?_eq_none (by simp; omega),
      List.getElem?_eq_none (by omega)]

theorem borrow_create : (cs.create v).borrow i = if i = cs.length then some v else cs.borrow i := by
  rw [borrow, getElem?_create]
  split <;> rfl

theorem isOpen_create : (cs.create v).isOpen i ↔ i = cs.length ∨ cs.isOpen i := by
  rw [isOpen, getElem?_create]
  split
  case isTrue h => simp [h]
  case isFalse h => simp [h, isOpen]

theorem borrow_sendReplace :
    (cs.sendReplace i v).borrow j =
      if i = j then (cs.borrow j).map fun _ => v else cs.borrow j := by
  rw [borrow, sendReplace, List.getElem?_modify, borrow]
  split <;> cases cs[j]? <;> rfl

@[simp] theorem isOpen_sendReplace : (cs.sendReplace i v).isOpen j = cs.isOpen j := by
  rw [isOpen, sendReplace, List.getElem?_modify, isOpen]
  split <;> cases cs[j]? <;> rfl

@[simp] theorem borrow_dropSender : (cs.dropSender i).borrow j = cs.borrow j := by
  rw [borrow, dropSender, List.getElem?_modify, borrow]
  split <;> cases cs[j]? <;> rfl

theorem isOpen_dropSender : (cs.dropSender i).isOpen j ↔ i ≠ j ∧ cs.isOpen j := by
  rw [isOpen, dropSender, List.getElem?_modify, isOpen]
  split
  case isTrue h => cases cs[j]? <;> simp [h]
  case isFalse h => cases cs[j]? <;> simp [h]

variable {cs i}

theorem lt_of_isOpen (h : cs.isOpen i) : i < cs.length := by
  by_contra hge
  rw [isOpen, List.getElem?_eq_none (by omega)] at h
  cases h

end Channels

end Distribd.Schemes
