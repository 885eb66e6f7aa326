import Bytewright.Verification.Common.Varint

/-! # Varints at the limits of a word

Where the reader gives back the whole number that is encoded, and that the writer's bytes are read
back and are the shortest. -/

namespace Bytewright.Common

/-! ### Decoding -/

/-- Continuation bytes alone use up every round. -/
theorem readVarintFrom_tooLong {cs : Bytes} (start : Nat) :
    ∀ (shift : Nat) (acc : UInt64) (r : ByteReader) (rest : Bytes), (∀ c ∈ cs, 128 ≤ c.toNat) →
      r.rest = cs ++ rest → readVarintFrom start cs.length shift acc r =
        .error (.thrown ⟨.kBadLength, start, "varint too long"⟩) (r.advance cs.length) := by
  induction cs with
  | nil => exact fun shift acc r rest _ _ => rfl
  | cons c cs ih =>
      intro shift acc r rest hcs hr
      have hne := and_0x80_ne_zero (hcs c (List.mem_cons_self ..))
      rw [List.length_cons, readVarintFrom, bind_of_ok (reads_readU8 c r (cs ++ rest) hr)]
      have hrest : (r.advance 1).rest = cs ++ rest := by simp [hr]
      simp only [hne, if_false]
      rw [List.length_singleton, ih _ _ _ rest (fun d hd => hcs d (List.mem_cons_of_mem c hd)) hrest]
      simp [Nat.add_comm]

/-- Ten bytes that end with one of which more than the lowest bit counts. -/
def Overflows (bs : Bytes) : Prop :=
  ∃ cs b rest, bs = cs ++ b :: rest ∧ cs.length = 9 ∧ (∀ c ∈ cs, 128 ≤ c.toNat) ∧
    1 < b.toNat ∧ b.toNat < 128

/-- What the cursor gives back is the whole number that stands there, or an exception. -/
def Lossless (r : ByteReader) : Prop :=
  (∀ v s, readVarint r = .ok v s → v.toNat = varintValue (r.rest.take (s.pos - r.pos))) ∧
    ∀ bs rest, r.rest = bs ++ rest → IsVarint bs → 2 ^ 64 ≤ varintValue bs →
      ∃ p s, readVarint r = .error (.thrown p) s

/-- An encoding of ten bytes at most fits the word unless its tenth byte overflows. -/
theorem IsVarint.lt_or_overflows {bs : Bytes} (h : IsVarint bs) (hlen : bs.length ≤ 10) (rest : Bytes) :
    varintValue bs < 2 ^ 64 ∨ Overflows (bs ++ rest) := by
  obtain ⟨cs, b, rfl, hcs, hb⟩ := h
  rw [List.length_append, List.length_singleton] at hlen
  have hlow := varintValue_lt cs
  rw [varintValue_append]
  by_cases hnine : cs.length = 9
  · rw [hnine] at hlow ⊢
    by_cases hone : b.toNat ≤ 1
    · left
      have hmod : b.toNat % 128 ≤ 1 := (Nat.mod_le _ _).trans hone
      omega
    · exact .inr ⟨cs, b, rest, by simp, hnine, hcs, by omega, hb⟩
  · left
    have hmod : b.toNat % 128 < 128 := Nat.mod_lt _ (by decide)
    have hpow : 128 ^ (cs.length + 1) ≤ 128 ^ 9 := Nat.pow_le_pow_right (by decide) (by omega)
    rw [pow_succ] at hpow
    nlinarith

/-- Past ten bytes the reader gives up. -/
theorem IsVarint.rejects {bs rest : Bytes} {r : ByteReader} (h : IsVarint bs) (hlen : 10 < bs.length)
    (hr : r.rest = bs ++ rest) :
    readVarint r = .error (.thrown ⟨.kBadLength, r.pos, "varint too long"⟩) (r.advance 10) := by
  obtain ⟨cs, b, rfl, hcs, hb⟩ := h
  rw [List.length_append, List.length_singleton] at hlen
  have hten : (cs.take 10).length = 10 := by
    rw [List.length_take]
    omega
  have hrest : r.rest = cs.take 10 ++ (cs.drop 10 ++ [b] ++ rest) := by
    rw [hr, ← List.append_assoc, ← List.append_assoc, List.take_append_drop]
  have hrun := readVarintFrom_tooLong r.pos 0 0 r _ (fun c hc => hcs c (List.mem_of_mem_take hc)) hrest
  rwa [hten] at hrun

/-- Ten bytes of which the last overflows are one encoding of a number beyond the word. -/
theorem Overflows.encoding {bs : Bytes} (h : Overflows bs) :
    ∃ cs rest, bs = cs ++ rest ∧ IsVarint cs ∧ cs.length = 10 ∧ 2 ^ 64 ≤ varintValue cs := by
  obtain ⟨cs, b, rest, rfl, hlen, hcs, hone, hb⟩ := h
  refine ⟨cs ++ [b], rest, by simp, ⟨cs, b, rfl, hcs, hb⟩, by simp [hlen], ?_⟩
  rw [varintValue_append, hlen, Nat.mod_eq_of_lt hb]
  omega

/-- The reader is exact everywhere but at ten bytes of which the last overflows. -/
theorem readVarint_lossless_iff (r : ByteReader) : Lossless r ↔ ¬ Overflows r.rest := by
  constructor
  · rintro ⟨-, hreject⟩ hover
    rcases hover.encoding with ⟨bs, rest, hr, hbs, hlen, hvalue⟩
    rcases hreject bs rest hr hbs hvalue with ⟨p, s, herror⟩
    rcases hbs.decodes (by omega) hr with ⟨v, hok, -⟩
    rw [hok] at herror
    cases herror
  · intro hover
    constructor
    · intro v s h
      rcases readVarint_takes h with ⟨bs, hbs, hlen, hr, rfl⟩
      have htake : r.rest.take ((r.advance bs.length).pos - r.pos) = bs := by
        rw [ByteReader.pos_advance, Nat.add_sub_cancel_left, hr, List.take_left]
      rw [htake]
      rcases hbs.lt_or_overflows hlen (r.advance bs.length).rest with hlt | hbad
      · rcases hbs.decodes hlen hr with ⟨u, hok, hu⟩
        rw [h] at hok
        cases hok
        exact hu hlt
      · exact absurd (hr ▸ hbad) hover
    · intro bs rest hr hbs hvalue
      rcases Nat.lt_or_ge 10 bs.length with hlong | hlen
      · exact ⟨_, _, hbs.rejects hlong hr⟩
      · rcases hbs.lt_or_overflows hlen rest with hlt | hbad
        · omega
        · exact absurd (hr ▸ hbad) hover

/-- Nine empty groups and a tenth of two stand for `2 ^ 64`, and are read as zero. -/
theorem readVarint_lossy : ¬ ∀ r, Lossless r := by
  intro h
  let r : ByteReader := { data := List.replicate 9 0x80 ++ [2] }
  have hread : readVarint r = .ok 0 (r.advance 10) := rfl
  have hvalue := (h r).1 0 _ hread
  have hsum : varintValue (r.rest.take ((r.advance 10).pos - r.pos)) = 2 ^ 64 := by decide +kernel
  rw [hsum] at hvalue
  cases hvalue

/-! ### Writing and reading back -/

/-- `bs` is how `a` is written: it reads back whatever follows, and no run of the reader that ends
with `a` takes fewer bytes. -/
structure Shortest {α : Type} (m : Reader α) (a : α) (bs : Bytes) : Prop where
  reads : Reads m bs a
  length_le : bs.length ≤ 10
  shortest : ∀ r s, m r = .ok a s → r.pos + bs.length ≤ s.pos

/-- The argument of a `put_varint` or of a `put_svarint`. -/
inductive Varint where
  | unsigned (v : UInt64)
  | signed (v : Int64)

def Varint.isSigned : Varint → Bool
  | .unsigned _ => false
  | .signed _ => true

/-- The call that writes `x`. -/
def putAny (w : ByteWriter) : Varint → ByteWriter
  | .unsigned v => w.putVarint v
  | .signed v => w.putSvarint v

/-- The call that reads a number of the kind. -/
def readAny (isSigned : Bool) : Reader Varint :=
  if isSigned then .signed <$> readSvarint else .unsigned <$> readVarint

theorem shortest_varintBytes (v : UInt64) : Shortest readVarint v (varintBytes v) where
  reads := reads_readVarint v
  length_le := varintBytes_length_le (by decide) (v.toNat_lt.trans (by decide))
  shortest := by
    intro r s h
    rcases exact_readVarint r v s h with ⟨bs, -, rfl, hreads, -⟩
    have hlen := varintBytes_length_le_of_reads hreads (Nat.le_refl _)
    exact Nat.add_le_add_left hlen r.pos

theorem shortest_zigzag (i : Int64) : Shortest readSvarint i (varintBytes (zigzag i)) where
  reads := reads_readSvarint i
  length_le := (shortest_varintBytes (zigzag i)).length_le
  shortest := by
    intro r s h
    rcases bind_eq_ok.mp h with ⟨u, t, hu, h⟩
    cases h
    rw [zigzag_unzigzag]
    exact (shortest_varintBytes u).shortest r s hu

theorem putAny_append (x : Varint) :
    ∃ bs, (∀ w : ByteWriter, (putAny w x).buffer = w.buffer ++ bs) ∧ Reads (readAny x.isSigned) bs x := by
  cases x with
  | unsigned v => exact ⟨varintBytes v, fun w => rfl, (reads_readVarint v).map _⟩
  | signed i => exact ⟨varintBytes (zigzag i), fun w => rfl, (reads_readSvarint i).map _⟩

theorem putAny_sequence (xs : List Varint) (w : ByteWriter) :
    ∃ bs, (xs.foldl putAny w).buffer = w.buffer ++ bs ∧
      Reads ((xs.map Varint.isSigned).mapM readAny) bs xs := by
  induction xs generalizing w with
  | nil => exact ⟨[], (List.append_nil _).symm, Reads.pure []⟩
  | cons x xs ih =>
      obtain ⟨bs, hx, hreads⟩ := putAny_append x
      obtain ⟨cs, hxs, hrest⟩ := ih (putAny w x)
      refine ⟨bs ++ cs, by rw [List.foldl_cons, hxs, hx, List.append_assoc], ?_⟩
      rw [List.map_cons, List.mapM_cons]
      exact hreads.bind (hrest.bind_last (Reads.pure (x :: xs)))

/-- Every number written is read back, alone or in a sequence, and written as short as can be. -/
theorem varint_roundTrip :
    (∀ v : UInt64, Shortest readVarint v (({} : ByteWriter).putVarint v).buffer) ∧
    (∀ i : Int64, Shortest readSvarint i (({} : ByteWriter).putSvarint i).buffer) ∧
    ∀ (xs : List Varint) (w : ByteWriter), ∃ bs, (xs.foldl putAny w).buffer = w.buffer ++ bs ∧
      Reads ((xs.map Varint.isSigned).mapM readAny) bs xs :=
  ⟨shortest_varintBytes, shortest_zigzag, putAny_sequence⟩

end Bytewright.Common
