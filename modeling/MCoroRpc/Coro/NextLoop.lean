/-
The round robin of the pool of event loops (init and getNextLoop in include/coro/event_loop_pool.hpp).

The index is the remainder of a signed 32-bit counter, which wraps. `%` of C++ truncates: a negative counter has no
positive remainder.

- `run_index`: behind init, the counter is the number of calls as an `int`.
- `remainder_nonneg_iff`: the remainder of a number that is not positive.
- `getNextLoop_index_iff`: after any number of calls the index is one of the pool exactly if the counter stands in the
  lower half of its values, or at a multiple of the thread count.
-/
import MCoroRpc.Core.CInt
import MCoroRpc.Core.Machine
import MCoroRpc.Coro.EventloopPool

namespace MCoroRpc

namespace NextLoop

open CInt

/-! ## Model -/

/-- the members of an EventloopPool that getNextLoop reads -/
structure Members where
  /-- `m_initialized` -/
  initialized : Bool
  /-- `m_threadCount` -/
  threadCount : ℤ
  /-- `m_index` -/
  index : ℤ
deriving DecidableEq, Repr

def make : Members := ⟨false, 0, 0⟩

def init (threadCount : ℤ) (p : Members) : Members := if p.initialized then p else ⟨true, threadCount, 0⟩

/-- the index of the loop, and `fetch_add` -/
def getNextLoop (p : Members) : ℤ × Members :=
  (Int.tmod p.index p.threadCount, { p with index := toInt (p.index + 1) })

inductive Label where
  | init (threadCount : ℤ)
  | getNextLoop
deriving DecidableEq, Repr

def step (p : Members) : Label → Members
  | .init threadCount => init threadCount p
  | .getNextLoop => (getNextLoop p).2

/-- the index that getNextLoop computes when the pool has been made with `threadCount` and `ls` has happened since -/
def nextIndex (threadCount : ℤ) (ls : List Label) : ℤ :=
  (getNextLoop (Machine.run step (init threadCount make) ls)).1

/-! ## The counter -/

/-- **The counter** of a pool that has been made: later calls of init do nothing, and every getNextLoop adds one -/
theorem run_index (threadCount : ℤ) (ls : List Label) :
    Machine.run step (init threadCount make) ls = ⟨true, threadCount, toInt (ls.count .getNextLoop)⟩ := by
  induction ls using List.reverseRecOn with
  | nil => rfl
  | append_singleton ls l ih =>
    have hrun : Machine.run step (init threadCount make) (ls ++ [l]) =
        step ⟨true, threadCount, toInt (ls.count .getNextLoop)⟩ l := by
      rw [Machine.run_append, ih]
      rfl
    rw [hrun]
    cases l with
    | init n => simp [step, init]
    | getNextLoop =>
      simp only [step, getNextLoop, toInt_toInt_add, List.count_append, List.count_singleton_self, Nat.cast_add,
        Nat.cast_one]

/-! ## The index -/

/-- the remainder has the sign of the number -/
theorem remainder_nonneg_iff {a n : ℤ} (ha : a ≤ 0) : 0 ≤ Int.tmod a n ↔ n ∣ a := by
  have hneg : 0 ≤ Int.tmod (-a) n := Int.tmod_nonneg n (by omega)
  rw [Int.neg_tmod] at hneg
  rw [Int.dvd_iff_tmod_eq_zero]
  omega

/-- **The index stays in range**: for every thread count and any number of earlier calls, the index that getNextLoop
computes is one of the pool exactly if the counter is in the first half of its 2^32 values, or the thread count divides
what is left to the last of them -/
theorem getNextLoop_index_iff {threadCount : ℤ} (hpos : 1 ≤ threadCount) (ls : List Label) :
    (0 ≤ nextIndex threadCount ls ∧ nextIndex threadCount ls ≤ threadCount - 1) ↔
      ls.count .getNextLoop % 4294967296 < 2147483648 ∨
        threadCount ∣ 4294967296 - (ls.count .getNextLoop % 4294967296 : ℕ) := by
  have hindex : nextIndex threadCount ls = Int.tmod (toInt (ls.count .getNextLoop)) threadCount := by
    simp only [nextIndex, run_index, getNextLoop]
  have hlt : nextIndex threadCount ls < threadCount := hindex ▸ Int.tmod_lt_of_pos _ (by omega)
  have hcast : ((ls.count .getNextLoop % 4294967296 : ℕ) : ℤ) = (ls.count .getNextLoop : ℤ) % 4294967296 := by
    push_cast
    rfl
  rcases Nat.lt_or_ge (ls.count .getNextLoop % 4294967296) 2147483648 with hk | hk
  · -- the counter has not come to the negative values
    have hnonneg : 0 ≤ nextIndex threadCount ls := by
      rw [hindex, toInt_of_emod_lt (by omega), ← hcast]
      exact Int.tmod_nonneg _ (Int.natCast_nonneg _)
    exact ⟨fun _ => .inl hk, fun _ => ⟨hnonneg, by omega⟩⟩
  · have hvalue : toInt (ls.count .getNextLoop) =
        -(4294967296 - ((ls.count .getNextLoop % 4294967296 : ℕ) : ℤ)) := by
      rw [toInt_of_le_emod (by omega), hcast]
      ring
    have hsign : 0 ≤ nextIndex threadCount ls ↔
        threadCount ∣ 4294967296 - ((ls.count .getNextLoop % 4294967296 : ℕ) : ℤ) := by
      rw [hindex, hvalue, remainder_nonneg_iff (by omega), Int.dvd_neg]
    constructor
    · exact fun ⟨h0, _⟩ => .inr (hsign.1 h0)
    · rintro (h | h)
      · omega
      · exact ⟨hsign.2 h, by omega⟩

/-- three threads, the first call after 2^31 calls: the counter is negative, and so is the index -/
theorem getNextLoop_negative :
    (Machine.run step (init 3 make) (List.replicate 2147483648 .getNextLoop)).index = -2147483648 ∧
      nextIndex 3 (List.replicate 2147483648 .getNextLoop) = -2 ∧
      ¬ (0 ≤ nextIndex 3 (List.replicate 2147483648 .getNextLoop) ∧
        nextIndex 3 (List.replicate 2147483648 .getNextLoop) ≤ 3 - 1) := by
  have hrun : Machine.run step (init 3 make) (List.replicate 2147483648 .getNextLoop) = ⟨true, 3, -2147483648⟩ := by
    rw [run_index, List.count_replicate_self]
    rfl
  unfold nextIndex
  rw [hrun]
  decide

theorem getNextLoop_index_three : 0 ≤ nextIndex 3 [.getNextLoop, .getNextLoop] ∧
    nextIndex 3 [.getNextLoop, .getNextLoop] ≤ 3 - 1 :=
  (getNextLoop_index_iff (by decide) _).2 (.inl (by decide))

end NextLoop

end MCoroRpc
