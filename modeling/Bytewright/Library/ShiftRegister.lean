import Mathlib.Data.List.Basic

/-! # Shift registers with feedback

The bits of a message go through a register one after the other; what leaves it at the lower end and
the next bit decide together whether a polynomial is added. What the register holds in the end is a
checksum of the message, and tells it from every one that differs in a few bits in a row. -/

namespace Bytewright.Library.ShiftRegister

variable {w : Nat}

/-- One bit of the message. -/
def feed (poly s : BitVec w) (b : Bool) : BitVec w :=
  if s.getLsbD 0 ^^ b then poly ^^^ (s >>> 1) else s >>> 1

def feeds (poly s : BitVec w) (bits : List Bool) : BitVec w := bits.foldl (feed poly) s

variable {poly s t : BitVec w} {b c : Bool}

@[simp] theorem feeds_nil : feeds poly s [] = s := rfl

@[simp] theorem feeds_cons (bits : List Bool) :
    feeds poly s (b :: bits) = feeds poly (feed poly s b) bits := rfl

theorem feeds_append (x y : List Bool) : feeds poly s (x ++ y) = feeds poly (feeds poly s x) y :=
  List.foldl_append

/-! ### A message in the register

Several bits can be added to the register at once, before it is shifted as many times. -/

/-- The lowest `n` bits of a word, from the lowest on. -/
def lowBits (n : Nat) (v : BitVec w) : List Bool := (List.range n).map v.getLsbD

theorem lowBits_succ (n : Nat) (v : BitVec w) :
    lowBits (n + 1) v = v.getLsbD 0 :: lowBits n (v >>> 1) := by
  rw [lowBits, List.range_succ_eq_map, List.map_cons, List.map_map, lowBits]
  congr 1
  apply List.map_congr_left
  intro i _
  simp [Nat.add_comm]

/-- A bit of the message may as well be added to the one that leaves. -/
theorem feed_xor (v : BitVec w) :
    feed poly (s ^^^ v) false = feed poly s (v.getLsbD 0) ^^^ (v >>> 1) := by
  rw [feed, feed, BitVec.getLsbD_xor, Bool.xor_false, BitVec.ushiftRight_xor_distrib]
  split
  · rw [BitVec.xor_assoc]
  · rfl

theorem feeds_lowBits {n : Nat} {v : BitVec w} (hv : v >>> n = 0#w) :
    feeds poly s (lowBits n v) = feeds poly (s ^^^ v) (List.replicate n false) := by
  induction n generalizing s v with
  | zero =>
      rw [BitVec.ushiftRight_zero] at hv
      rw [hv, BitVec.xor_zero]
      rfl
  | succ n ih =>
      have hnext : v >>> 1 >>> n = 0#w := by
        rw [← BitVec.shiftRight_add, Nat.add_comm]
        exact hv
      rw [lowBits_succ, List.replicate_succ, feeds_cons, feeds_cons, ih hnext, feed_xor]

/-- Bits too high to leave the register while the message goes in only move down. -/
theorem feeds_xor_high (bits : List Bool) {v : BitVec w} (hv : ∀ i < bits.length, v.getLsbD i = false) :
    feeds poly (s ^^^ v) bits = feeds poly s bits ^^^ (v >>> bits.length) := by
  induction bits generalizing s v with
  | nil => simp
  | cons b bits ih =>
      have hlow : v.getLsbD 0 = false := hv 0 (by simp)
      have hnext : ∀ i < bits.length, (v >>> 1).getLsbD i = false := by
        intro i hi
        rw [BitVec.getLsbD_ushiftRight]
        exact hv (1 + i) (by simp; omega)
      have hfeed : feed poly (s ^^^ v) b = feed poly s b ^^^ (v >>> 1) := by
        rw [feed, feed, BitVec.getLsbD_xor, hlow, Bool.xor_false, BitVec.ushiftRight_xor_distrib]
        split
        · rw [BitVec.xor_assoc]
        · rfl
      rw [feeds_cons, feeds_cons, hfeed, ih hnext, List.length_cons, ← BitVec.shiftRight_add,
        Nat.add_comm]

/-- What a few steps do to the lowest bits can be looked up; the others only move down. -/
theorem feeds_mask {n : Nat} {mask : BitVec w} (hmask : ∀ i < w, mask.getLsbD i = decide (i < n))
    (x : BitVec w) : feeds poly x (List.replicate n false) =
      feeds poly (x &&& mask) (List.replicate n false) ^^^ (x >>> n) := by
  have hsplit : x = (x &&& mask) ^^^ (x &&& ~~~mask) := by
    apply BitVec.eq_of_getLsbD_eq
    intro i hi
    rw [BitVec.getLsbD_xor, BitVec.getLsbD_and, BitVec.getLsbD_and, BitVec.getLsbD_not]
    cases x.getLsbD i <;> cases mask.getLsbD i <;> simp [hi]
  have hlow : ∀ i < (List.replicate n false).length, (x &&& ~~~mask).getLsbD i = false := by
    intro i hi
    rw [List.length_replicate] at hi
    rw [BitVec.getLsbD_and, BitVec.getLsbD_not]
    by_cases hw : i < w
    · have hon : mask.getLsbD i = true := by simp [hmask i hw, hi]
      rw [hon]
      simp
    · simp [hw]
  have hhigh : (x &&& ~~~mask) >>> n = x >>> n := by
    apply BitVec.eq_of_getLsbD_eq
    intro i _
    rw [BitVec.getLsbD_ushiftRight, BitVec.getLsbD_ushiftRight, BitVec.getLsbD_and, BitVec.getLsbD_not]
    by_cases hw : n + i < w
    · have hoff : mask.getLsbD (n + i) = false := by simp [hmask _ hw]
      rw [hoff]
      simp [hw]
    · simp [BitVec.getLsbD_of_ge x (n + i) (by omega)]
  conv => lhs; rw [hsplit]
  rw [feeds_xor_high _ hlow, List.length_replicate, hhigh]

/-! ### Going back

The bits at the upper end show what was added, so the last step can be undone from them. -/

/-- If two registers agree from some bit on after a step, the same was added to both in it, and they
agreed from the next bit on before. -/
theorem agree_of_feed (hpoly : poly.msb = true) {k : Nat} (hk : k < w)
    (h : feed poly s b >>> k = feed poly t c >>> k) :
    (s.getLsbD 0 ^^ b) = (t.getLsbD 0 ^^ c) ∧ s >>> (k + 1) = t >>> (k + 1) := by
  have htop : ∀ (u : BitVec w) (d : Bool), (feed poly u d).getLsbD (w - 1) = (u.getLsbD 0 ^^ d) := by
    intro u d
    have hshift : (u >>> 1).getLsbD (w - 1) = false := by
      rw [BitVec.getLsbD_ushiftRight]
      exact BitVec.getLsbD_of_ge _ _ (by omega)
    have hadded : poly.getLsbD (w - 1) = true := by rwa [← BitVec.msb_eq_getLsbD_last]
    rw [feed]
    cases u.getLsbD 0 ^^ d <;> simp [hshift, hadded]
  have hsame : (s.getLsbD 0 ^^ b) = (t.getLsbD 0 ^^ c) := by
    have hbit := congrArg (BitVec.getLsbD · (w - 1 - k)) h
    simp only [BitVec.getLsbD_ushiftRight] at hbit
    rwa [Nat.add_sub_cancel' (by omega), htop, htop] at hbit
  refine ⟨hsame, ?_⟩
  rw [feed, feed, hsame] at h
  rw [Nat.add_comm, BitVec.shiftRight_add, BitVec.shiftRight_add]
  split at h
  · rw [BitVec.ushiftRight_xor_distrib, BitVec.ushiftRight_xor_distrib] at h
    exact (BitVec.xor_right_inj _).mp h
  · exact h

/-- Several steps back. -/
theorem agree_of_feeds (hpoly : poly.msb = true) {x y : List Bool} (hlen : x.length = y.length) {k : Nat}
    (hk : k + x.length ≤ w) (h : feeds poly s x >>> k = feeds poly t y >>> k) :
    s >>> (k + x.length) = t >>> (k + x.length) := by
  induction x generalizing s t y with
  | nil =>
      obtain rfl := List.length_eq_zero_iff.mp hlen.symm
      exact h
  | cons b x ih =>
      cases y with
      | nil => cases hlen
      | cons c y =>
          rw [List.length_cons] at hk
          have hrest := ih (Nat.succ.inj hlen) (by omega) h
          exact (agree_of_feed hpoly (by omega) hrest).2

theorem feed_injective (hpoly : poly.msb = true) (hw : 0 < w) (b : Bool) :
    Function.Injective (feed poly · b) := by
  intro s t (h : feed poly s b = feed poly t b)
  have hagree : feed poly s b >>> 0 = feed poly t b >>> 0 := by rw [h]
  obtain ⟨hlow, hhigh⟩ := agree_of_feed hpoly hw hagree
  apply BitVec.eq_of_getLsbD_eq
  intro i _
  cases i with
  | zero => exact Bool.xor_left_inj.mp hlow
  | succ i =>
      have hbit := congrArg (BitVec.getLsbD · i) hhigh
      simp only [BitVec.getLsbD_ushiftRight] at hbit
      rwa [Nat.add_comm i 1]

theorem feeds_injective (hpoly : poly.msb = true) (hw : 0 < w) (bits : List Bool) :
    Function.Injective (feeds poly · bits) := by
  induction bits with
  | nil => exact Function.injective_id
  | cons b bits ih => exact ih.comp (feed_injective hpoly hw b)

/-- A register tells apart all messages that are not longer than itself. -/
theorem eq_of_feeds (hpoly : poly.msb = true) {x y : List Bool} (hlen : x.length = y.length)
    (hw : x.length ≤ w) (h : feeds poly s x = feeds poly s y) : x = y := by
  induction x generalizing s y with
  | nil => exact (List.length_eq_zero_iff.mp hlen.symm).symm
  | cons b x ih =>
      cases y with
      | nil => cases hlen
      | cons c y =>
          have htail : x.length = y.length := Nat.succ.inj hlen
          rw [List.length_cons] at hw
          rw [feeds_cons, feeds_cons] at h
          have hrest : feed poly s b >>> (0 + x.length) = feed poly s c >>> (0 + x.length) :=
            agree_of_feeds hpoly htail (by omega) (by rw [h])
          obtain ⟨hlow, -⟩ := agree_of_feed hpoly (by omega) hrest
          obtain rfl := Bool.xor_right_inj.mp hlow
          rw [ih htail (by omega) h]

/-! ### Bursts -/

/-- Nothing differs outside some `n` places in a row. -/
def DifferWithin (n : Nat) (x y : List Bool) : Prop :=
  ∃ i, ∀ j, j < i ∨ i + n ≤ j → x[j]? = y[j]?

theorem DifferWithin.of_append {n : Nat} (front rest : List Bool) {x y : List Bool}
    (hlen : x.length = y.length) (hn : x.length ≤ n) :
    DifferWithin n (front ++ (x ++ rest)) (front ++ (y ++ rest)) := by
  refine ⟨front.length, fun j hj => ?_⟩
  rcases hj with hj | hj
  · rw [List.getElem?_append_left hj, List.getElem?_append_left hj]
  · rw [List.getElem?_append_right (by omega), List.getElem?_append_right (by omega),
      List.getElem?_append_right (by omega), List.getElem?_append_right (by omega), hlen]

/-- A burst that the register is long enough for always shows. -/
theorem feeds_ne_of_burst (hpoly : poly.msb = true) {x y : List Bool} (hlen : x.length = y.length)
    (hne : x ≠ y) (hburst : DifferWithin w x y) : feeds poly s x ≠ feeds poly s y := by
  obtain ⟨i, hsame⟩ := hburst
  have hbefore : x.take i = y.take i := by
    apply List.ext_getElem?
    intro j
    rw [List.getElem?_take, List.getElem?_take]
    split
    · next hj => exact hsame j (.inl hj)
    · rfl
  have hbehind : x.drop (i + w) = y.drop (i + w) := by
    apply List.ext_getElem?
    intro j
    rw [List.getElem?_drop, List.getElem?_drop]
    exact hsame _ (.inr (Nat.le_add_right ..))
  have hsplit : ∀ z : List Bool, z = z.take i ++ ((z.drop i).take w ++ z.drop (i + w)) := by
    intro z
    rw [← List.drop_drop, List.take_append_drop, List.take_append_drop]
  have hwindow : ((x.drop i).take w).length = ((y.drop i).take w).length := by
    rw [List.length_take, List.length_take, List.length_drop, List.length_drop, hlen]
  intro h
  apply hne
  have hw : 0 < w := Nat.pos_of_ne_zero fun hzero => by
    subst hzero
    simp [BitVec.msb] at hpoly
  rw [hsplit x, hsplit y, feeds_append, feeds_append, feeds_append, feeds_append, ← hbefore,
    ← hbehind] at h
  have hbits := eq_of_feeds hpoly hwindow (List.length_take_le ..)
    (feeds_injective hpoly hw (x.drop (i + w)) h)
  rw [hsplit x, hsplit y, hbefore, hbehind, hbits]

/-! ### The other direction

A register whose bits move up is the mirror image of one whose bits move down. -/

theorem reverse_xor (x y : BitVec w) : (x ^^^ y).reverse = x.reverse ^^^ y.reverse := by
  apply BitVec.eq_of_getLsbD_eq
  intro i _
  simp only [BitVec.getLsbD_reverse, BitVec.getMsbD_xor, BitVec.getLsbD_xor]

theorem reverse_shiftLeft (x : BitVec w) (n : Nat) : (x <<< n).reverse = x.reverse >>> n := by
  apply BitVec.eq_of_getLsbD_eq
  intro i hi
  rw [BitVec.getLsbD_reverse, BitVec.getMsbD_shiftLeft, BitVec.getLsbD_ushiftRight,
    BitVec.getLsbD_reverse, Nat.add_comm]

theorem reverse_feed (poly s : BitVec w) :
    (if s.msb then (s <<< 1) ^^^ poly else s <<< 1).reverse = feed poly.reverse s.reverse false := by
  rw [feed, Bool.xor_false, BitVec.getLsbD_reverse, ← BitVec.msb]
  split
  · rw [reverse_xor, reverse_shiftLeft, BitVec.xor_comm]
  · rw [reverse_shiftLeft]

end Bytewright.Library.ShiftRegister
