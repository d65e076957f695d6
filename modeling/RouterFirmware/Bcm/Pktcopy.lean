/-
# A slice of a packet

`pktcopy` of `shared/bcmutils.c` copies bytes of a packet, a chain of buffers, into one buffer: one loop skips the bytes
in front of an offset, the other one copies. A negative length stands for all the rest, in the source "infinite", and is
taken for 4096.
-/
import RouterFirmware.Lib.CMem

namespace Router
namespace Bcm
namespace Pktcopy

open CMem

/-- A chain of packet buffers: the data of each. -/
abbrev Chain := List (List UInt8)

/-- Skip `offset` bytes: the chain from the buffer where the slice begins, and the offset in it. -/
def skipLoop : Chain → ℕ → Chain × ℕ
  | [], offset => ([], offset)
  | p :: next, offset =>
    if offset = 0 then (p :: next, 0)
    else if offset < p.length then (p :: next, offset)
    else skipLoop next (offset - p.length)

/-- Copy the data to `buf`: the memory, and how many bytes it was. -/
def copyLoop : Chain → ℕ → ℕ → Mem → ℕ → Mem × ℕ
  | [], _, _, m, _ => (m, 0)
  | p :: next, offset, len, m, buf =>
    if len = 0 then (m, 0)
    else
      let n := min (p.length - offset) len
      let r := copyLoop next 0 (len - n) (write m buf ((p.drop offset).take n)) (buf + n)
      (r.1, n + r.2)

/-- `pktcopy(osh, p, offset, len, buf)`. -/
def pktcopy (p : Chain) (offset : ℕ) (len : ℤ) (m : Mem) (buf : ℕ) : Mem × ℕ :=
  -- "infinite"
  let len := if len < 0 then 4096 else len.toNat
  let s := skipLoop p offset
  if s.1 = [] then (m, 0) else copyLoop s.1 s.2 len m buf

/-! ### The slice -/

/-- The bytes that are asked for: so many behind the offset, or all of them. -/
def slice (p : Chain) (offset : ℕ) (len : ℤ) : List UInt8 :=
  if len < 0 then p.flatten.drop offset else (p.flatten.drop offset).take len.toNat

/-- The skipped bytes are taken off the front. -/
theorem skipLoop_spec : ∀ (p : Chain) (offset : ℕ),
    (skipLoop p offset).1.flatten.drop (skipLoop p offset).2 = p.flatten.drop offset ∧
      ∀ b ∈ (skipLoop p offset).1.head?, (skipLoop p offset).2 ≤ b.length
  | [], offset => ⟨by simp [skipLoop], fun b hb => by cases hb⟩
  | p :: next, offset => by
    unfold skipLoop
    split_ifs with hzero hlt
    · rw [hzero]
      exact ⟨rfl, fun b _ => Nat.zero_le _⟩
    · refine ⟨rfl, fun b hb => ?_⟩
      cases hb
      exact hlt.le
    · obtain ⟨hdrop, hhead⟩ := skipLoop_spec next (offset - p.length)
      refine ⟨?_, hhead⟩
      rw [hdrop, List.flatten_cons, List.drop_append, @List.drop_eq_nil_of_le _ p offset (by omega), List.nil_append]

/-- Only what the loop is to copy is written, and it is written from `buf` on. -/
theorem copyLoop_spec : ∀ (p : Chain) (offset len : ℕ) (m : Mem) (buf : ℕ), (∀ b ∈ p.head?, offset ≤ b.length) →
    copyLoop p offset len m buf =
      (write m buf ((p.flatten.drop offset).take len), ((p.flatten.drop offset).take len).length)
  | [], offset, len, m, buf, _ => by simp [copyLoop, write_nil]
  | p :: next, offset, len, m, buf, hhead => by
    have hle : offset ≤ p.length := hhead p rfl
    unfold copyLoop
    by_cases hlen : len = 0
    · rw [if_pos hlen, hlen, List.take_zero, write_nil]
      rfl
    · have hdrop : (p.drop offset).length = p.length - offset := List.length_drop
      have hnow : ((p.drop offset).take (min (p.length - offset) len)).length = min (p.length - offset) len := by
        rw [List.length_take, hdrop]
        omega
      have hsplit : ((p :: next).flatten.drop offset).take len =
          (p.drop offset).take (min (p.length - offset) len) ++
            next.flatten.take (len - min (p.length - offset) len) := by
        rw [List.flatten_cons, List.drop_append_of_le_length hle, List.take_append, hdrop]
        rcases Nat.le_total (p.length - offset) len with hall | hpart
        · rw [min_eq_left hall, List.take_of_length_le (hdrop.trans_le hall), List.take_of_length_le hdrop.le]
        · rw [min_eq_right hpart, Nat.sub_self, Nat.sub_eq_zero_of_le hpart]
      rw [if_neg hlen]
      dsimp only
      rw [copyLoop_spec next 0 _ _ _ fun b _ => Nat.zero_le _, List.drop_zero, hsplit, List.length_append, hnow,
        ← write_write, hnow]

theorem pktcopy_spec (p : Chain) (offset : ℕ) (len : ℤ) (m : Mem) (buf : ℕ) :
    pktcopy p offset len m buf =
      (write m buf ((p.flatten.drop offset).take (if len < 0 then 4096 else len.toNat)),
        ((p.flatten.drop offset).take (if len < 0 then 4096 else len.toNat)).length) := by
  obtain ⟨hdrop, hhead⟩ := skipLoop_spec p offset
  unfold pktcopy
  dsimp only
  rw [← hdrop]
  by_cases hnil : (skipLoop p offset).1 = []
  · rw [if_pos hnil, hnil, List.flatten_nil, List.drop_nil, List.take_nil, write_nil]
    rfl
  · rw [if_neg hnil]
    exact copyLoop_spec _ _ _ m buf hhead

/-- The slice is written to `buf` and nothing else, and its length is returned. -/
def Copies (p : Chain) (offset : ℕ) (len : ℤ) (m : Mem) (buf : ℕ) : Prop :=
  pktcopy p offset len m buf = (write m buf (slice p offset len), (slice p offset len).length)

/-- **The slice is copied** if a length is given, or no more than 4096 bytes are left behind the offset. -/
theorem copies_iff (p : Chain) (offset : ℕ) (len : ℤ) (m : Mem) (buf : ℕ) :
    Copies p offset len m buf ↔ 0 ≤ len ∨ p.flatten.length - offset ≤ 4096 := by
  unfold Copies
  rw [pktcopy_spec, slice]
  by_cases hneg : len < 0
  · rw [if_pos hneg, if_pos hneg, or_iff_right (by omega)]
    constructor
    · intro h
      have hcount := congrArg Prod.snd h
      rw [List.length_take, List.length_drop] at hcount
      omega
    · intro hleft
      rw [List.take_of_length_le (by rwa [List.length_drop])]
  · rw [if_neg hneg, if_neg hneg]
    exact iff_of_true rfl (.inl (by omega))

/-- A buffer of 4097 bytes is not copied to its end. -/
theorem infinite_not_copied : ¬Copies [List.replicate 4097 0] 0 (-1) (fun _ => 0) 0 := by
  unfold Copies
  rw [pktcopy_spec, slice]
  intro h
  have hcount := congrArg Prod.snd h
  rw [if_pos (by decide), if_pos (by decide), List.length_take, List.length_drop, List.flatten_singleton,
    List.length_replicate] at hcount
  exact absurd hcount (by decide)

end Pktcopy
end Bcm
end Router
