import FTorrent.Lib.Run

/-!
# Fixed-width integers, failures, vector accesses and timers

Counters and sizes of the program are natural numbers; where the program stores one in a
`uint32_t` or computes it in 64 bits the model writes `u32` or `u64`.  A function of the program
that can throw or can index outside a container is a function into `Except Fault`.
-/

namespace FTorrent

/-- The value a `uint32_t` holds after being assigned `x`. -/
def u32 (x : ℕ) : ℕ := x % 2 ^ 32

/-- The value of `x` computed in `uint64_t` arithmetic. -/
def u64 (x : ℕ) : ℕ := x % 2 ^ 64

theorem u32_of_lt {x : ℕ} (h : x < 2 ^ 32) : u32 x = x := Nat.mod_eq_of_lt h

theorem u64_of_lt {x : ℕ} (h : x < 2 ^ 64) : u64 x = x := Nat.mod_eq_of_lt h

theorem u32_lt (x : ℕ) : u32 x < 2 ^ 32 := Nat.mod_lt _ (by decide)

theorem u32_u64 (x : ℕ) : u32 (u64 x) = u32 x := Nat.mod_mod_of_dvd x (by decide)

/-- `types::Hash`. -/
abbrev Hash := Vector UInt8 20

/-- `types::PeerDescriptor`, and the endpoint it resolves to. -/
structure PeerDescriptor where
  ip : UInt32
  port : UInt16
  deriving DecidableEq

/-- Why a handler does not return a state: it throws, it indexes outside a container or overflows an
`int` (undefined behaviour), or the event it handles cannot occur. -/
inductive Fault where
  | exception (message : String)
  | outOfRange
  | notEnabled
  deriving DecidableEq, Repr

/-- `boost::system::error_code`. -/
structure ErrorCode where
  value : ℤ
  message : String
  deriving DecidableEq, Repr

/-- The error code of a successful operation. -/
def ErrorCode.success : ErrorCode := ⟨0, "Success"⟩

/-- `v[i]` for a `std::vector`. -/
def vectorAt {α : Type} (v : List α) (i : ℕ) : Except Fault α :=
  match v[i]? with
  | some a => .ok a
  | none => .error .outOfRange

@[simp] theorem vectorAt_eq_ok {α : Type} {v : List α} {i : ℕ} {a : α} :
    vectorAt v i = .ok a ↔ v[i]? = some a := by
  unfold vectorAt
  split <;> simp_all

/-! ### Timers -/

/-- A `steady_timer`: whether a wait is pending, and how many handlers of expired waits are queued.
`starts`, a history variable, counts the waits, so that a wait that is started anew shows. -/
structure SteadyTimer where
  waiting : Bool := false
  queued : ℕ := 0
  seconds : ℕ := 0
  starts : ℕ := 0
  deriving DecidableEq

namespace SteadyTimer

/-- `expires_after`, which cancels a pending wait, and `async_wait`. -/
def start (t : SteadyTimer) (seconds : ℕ) : SteadyTimer :=
  { t with waiting := true, seconds, starts := t.starts + 1 }

def cancel (t : SteadyTimer) : SteadyTimer := { t with waiting := false }

/-- The pending wait ends. -/
def expire (t : SteadyTimer) : SteadyTimer := { t with waiting := false, queued := t.queued + 1 }

/-- The handler of an expired wait is taken from the queue. -/
def take (t : SteadyTimer) : SteadyTimer := { t with queued := t.queued - 1 }

end SteadyTimer

end FTorrent
