import Mathlib.Tactic.Common
import Swbis.Lib.CString

/-!
# Hashes that take their input in blocks

A `BlockHash` compresses one block of bytes after another into a state.  A
program that is given a message in pieces keeps the state after the whole blocks
so far and the bytes behind them.  `Stands` says that a state and pending bytes
stand for a message; how much is pending is left open, so a program may compress
a full block at once or keep it until more bytes arrive.  `Stands.start`,
`Stands.append` and `Stands.compress` are the steps of such a program, and
`Stands.finish` says that it ends with the hash of the message.

`padding` fills a message up to a count of its bytes that ends with the block.
-/

namespace CLib

/-- A compression function on blocks of `size` bytes. -/
structure BlockHash (σ : Type) where
  size : Nat
  size_pos : 0 < size
  compress : σ → Bytes → σ

namespace BlockHash

/-- The size of the blocks that hashes of 32-bit words take. -/
theorem sixtyFour_pos : 0 < 64 := Nat.succ_pos _

variable {σ : Type} (h : BlockHash σ)

/-- Compress the blocks of some data.  Bytes that do not fill a block are left
out. -/
def run (s : σ) (data : Bytes) : σ :=
  if h.size ≤ data.length then run (h.compress s (data.take h.size)) (data.drop h.size) else s
termination_by data.length
decreasing_by
  have := h.size_pos
  rw [List.length_drop]
  omega

theorem run_of_lt {s : σ} {data : Bytes} (hlt : data.length < h.size) : h.run s data = s := by
  rw [run, if_neg (Nat.not_le.mpr hlt)]

theorem run_of_le {s : σ} {data : Bytes} (hle : h.size ≤ data.length) :
    h.run s data = h.run (h.compress s (data.take h.size)) (data.drop h.size) := by
  rw [run, if_pos hle]

@[simp] theorem run_nil (s : σ) : h.run s [] = s := h.run_of_lt h.size_pos

/-- One block, and what is behind it. -/
theorem run_block_append {s : σ} {block rest : Bytes} (hlen : block.length = h.size) :
    h.run s (block ++ rest) = h.run (h.compress s block) rest := by
  rw [run_of_le h (by rw [List.length_append]; omega), List.take_left' hlen, List.drop_left' hlen]

theorem run_block {s : σ} {block : Bytes} (hlen : block.length = h.size) :
    h.run s block = h.compress s block := by
  have happ : h.run s (block ++ []) = h.run (h.compress s block) [] := h.run_block_append hlen
  rwa [List.append_nil, run_nil] at happ

/-- Whole blocks can be compressed on their own. -/
theorem run_append {s : σ} {front rest : Bytes} (hdvd : h.size ∣ front.length) :
    h.run s (front ++ rest) = h.run (h.run s front) rest := by
  obtain ⟨k, hk⟩ := hdvd
  induction k generalizing s front with
  | zero =>
      rw [List.length_eq_zero_iff.mp hk, List.nil_append, run_nil]
  | succ k ih =>
      have hle : h.size ≤ front.length := by
        rw [hk, Nat.mul_succ]
        omega
      have hdrop : (front.drop h.size).length = h.size * k := by
        rw [List.length_drop, hk, Nat.mul_succ]
        omega
      rw [run_of_le h hle, ← ih hdrop,
        run_of_le h (by rw [List.length_append]; omega), List.take_append_of_le_length hle,
        List.drop_append_of_le_length hle]

/-! ## Messages in pieces -/

/-- The state and the pending bytes of a program that has been given a message:
the blocks before the pending bytes are compressed. -/
def Stands (s₀ : σ) (msg : Bytes) (s : σ) (pending : Bytes) : Prop :=
  ∃ done, h.size ∣ done.length ∧ msg = done ++ pending ∧ s = h.run s₀ done

variable {h} {s₀ s : σ} {msg pending : Bytes}

theorem Stands.start (s₀ : σ) : h.Stands s₀ [] s₀ [] :=
  ⟨[], Nat.dvd_zero _, rfl, (h.run_nil s₀).symm⟩

/-- More of the message arrives. -/
theorem Stands.append (hst : h.Stands s₀ msg s pending) (data : Bytes) :
    h.Stands s₀ (msg ++ data) s (pending ++ data) := by
  obtain ⟨done, hdvd, rfl, rfl⟩ := hst
  exact ⟨done, hdvd, List.append_assoc _ _ _, rfl⟩

/-- Pending blocks are compressed. -/
theorem Stands.compress {front rest : Bytes} (hst : h.Stands s₀ msg s (front ++ rest))
    (hfront : h.size ∣ front.length) : h.Stands s₀ msg (h.run s front) rest := by
  obtain ⟨done, hdvd, rfl, rfl⟩ := hst
  refine ⟨done ++ front, ?_, (List.append_assoc _ _ _).symm, (h.run_append hdvd).symm⟩
  rw [List.length_append]
  exact Nat.dvd_add hdvd hfront

/-- The pending bytes and a tail are compressed at the end. -/
theorem Stands.finish (hst : h.Stands s₀ msg s pending) (tail : Bytes) :
    h.run s (pending ++ tail) = h.run s₀ (msg ++ tail) := by
  obtain ⟨done, hdvd, rfl, rfl⟩ := hst
  rw [List.append_assoc, h.run_append hdvd]

/-- How much is pending, up to whole blocks. -/
theorem Stands.length_mod (hst : h.Stands s₀ msg s pending) :
    pending.length % h.size = msg.length % h.size := by
  obtain ⟨done, ⟨k, hk⟩, rfl, rfl⟩ := hst
  rw [List.length_append, hk, Nat.add_comm, Nat.add_mul_mod_self_left]

theorem Stands.length_le (hst : h.Stands s₀ msg s pending) : pending.length ≤ msg.length := by
  obtain ⟨done, _, rfl, rfl⟩ := hst
  rw [List.length_append]
  exact Nat.le_add_left _ _

end BlockHash

/-! ## The padding of a message -/

/-- The NULs between the mark behind a message of `n` bytes and the last `room`
bytes of a block. -/
def padZeros (size room n : Nat) : Nat := (2 * size - 1 - room - n % size) % size

/-- The mark behind a message, and NULs until `room` bytes are left in a block. -/
def padding (size room n : Nat) : Bytes := 0x80 :: List.replicate (padZeros size room n) 0

theorem length_padding (size room n : Nat) :
    (padding size room n).length = padZeros size room n + 1 := by
  rw [padding, List.length_cons, List.length_replicate]

/-- Only the length up to whole blocks matters. -/
theorem padding_congr {size room n m : Nat} (hmod : n % size = m % size) :
    padding size room n = padding size room m := by
  rw [padding, padding, padZeros, padZeros, hmod]

end CLib
