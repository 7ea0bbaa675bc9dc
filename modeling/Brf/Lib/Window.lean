import Mathlib.Data.Finset.Card
import Mathlib.Data.Finset.Range
import Mathlib.Data.Nat.ModEq

/-! # Windows

Activities are numbered in the order in which they enter. At most `c` of them are active, all of
them among the last `c` that entered, so that each has the slot of its number modulo `c` for
itself. -/

namespace Brf.Lib

structure Window (c : ℕ) where
  next : ℕ
  active : Finset ℕ
  lt_next : ∀ k ∈ active, k < next
  next_le : ∀ k ∈ active, next ≤ k + c

namespace Window

variable {c : ℕ} {w : Window c}

@[ext]
theorem ext {w w' : Window c} (hnext : w.next = w'.next) (hactive : w.active = w'.active) :
    w = w' := by
  cases w'
  cases hnext
  cases hactive
  rfl

def empty (c : ℕ) : Window c := ⟨0, ∅, by simp, by simp⟩

/-- No active number has the slot of the next one. -/
def Free (w : Window c) : Prop := ∀ k ∈ w.active, k % c ≠ w.next % c

theorem slot_inj {k k' : ℕ} (hk : k ∈ w.active) (hk' : k' ∈ w.active) (hslot : k % c = k' % c) :
    k = k' := by
  have key : ∀ {a b : ℕ}, a ∈ w.active → b ∈ w.active → a % c = b % c → a ≤ b → a = b := by
    intro a b ha hb hslot hle
    have hnear : b < a + c := Nat.lt_of_lt_of_le (w.lt_next b hb) (w.next_le a ha)
    have hdvd : c ∣ b - a := (Nat.modEq_iff_dvd' hle).mp hslot
    have hzero := Nat.eq_zero_of_dvd_of_lt hdvd (by omega)
    omega
  rcases Nat.le_total k k' with hle | hle
  · exact key hk hk' hslot hle
  · exact (key hk' hk hslot.symm hle).symm

theorem pos_of_mem {k : ℕ} (hk : k ∈ w.active) : 0 < c := by
  have hlt := w.lt_next k hk
  have hle := w.next_le k hk
  omega

theorem card_le (w : Window c) : w.active.card ≤ c := by
  have hmaps : ∀ k ∈ w.active, k % c ∈ Finset.range c := fun k hk =>
    Finset.mem_range.mpr (Nat.mod_lt k (pos_of_mem hk))
  have hinj : Set.InjOn (fun k => k % c) w.active := fun k hk k' hk' => slot_inj hk hk'
  calc w.active.card ≤ (Finset.range c).card := Finset.card_le_card_of_injOn _ hmaps hinj
    _ = c := Finset.card_range c

def enter (w : Window c) (hc : 0 < c) (hfree : w.Free) : Window c where
  next := w.next + 1
  active := insert w.next w.active
  lt_next := by
    intro k hk
    rcases Finset.mem_insert.mp hk with rfl | hk
    · exact Nat.lt_succ_self _
    · exact Nat.lt_succ_of_lt (w.lt_next k hk)
  next_le := by
    intro k hk
    rcases Finset.mem_insert.mp hk with rfl | hk
    · omega
    · have hle := w.next_le k hk
      have hne : w.next ≠ k + c := by
        intro heq
        exact hfree k hk (by rw [heq, Nat.add_mod_right])
      omega

def leave (w : Window c) (k : ℕ) : Window c where
  next := w.next
  active := w.active.erase k
  lt_next := fun j hj => w.lt_next j (Finset.mem_of_mem_erase hj)
  next_le := fun j hj => w.next_le j (Finset.mem_of_mem_erase hj)

theorem next_notMem (w : Window c) : w.next ∉ w.active := fun h =>
  absurd (w.lt_next _ h) (Nat.lt_irrefl _)

theorem card_leave {k : ℕ} (hk : k ∈ w.active) : (w.leave k).active.card + 1 = w.active.card :=
  Finset.card_erase_add_one hk

end Window

end Brf.Lib
