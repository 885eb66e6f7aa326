import Bytewright.Verification.Streamcodec.Tokens

/-! # What compression makes of a byte string -/

namespace Bytewright.Streamcodec

open Bytewright.Common Bytewright.Library

/-! ### Runs of equal bytes -/

/-- The runs of equal bytes, each cut off at the longest token, behind `n` bytes `v` of the first. -/
def runsFrom (v : UInt8) (n : Nat) : Bytes → List (UInt8 × Nat)
  | [] => [(v, n)]
  | b :: bs =>
    if b = v ∧ n < kRleMaxTokenLen then runsFrom v (n + 1) bs else (v, n) :: runsFrom b 1 bs

def runs : Bytes → List (UInt8 × Nat)
  | [] => []
  | b :: bs => runsFrom b 1 bs

theorem runsFrom_pos {v : UInt8} {n : Nat} (hn : 0 < n) (bs : Bytes) :
    ∀ r ∈ runsFrom v n bs, 0 < r.2 := by
  induction bs generalizing v n with
  | nil => simpa [runsFrom] using hn
  | cons b bs ih =>
      rw [runsFrom]
      split
      · exact ih (Nat.succ_pos n)
      · exact List.forall_mem_cons.mpr ⟨hn, ih Nat.one_pos⟩

theorem sum_runsFrom (v : UInt8) (n : Nat) (bs : Bytes) :
    ((runsFrom v n bs).map Prod.snd).sum = n + bs.length := by
  induction bs generalizing v n with
  | nil => simp [runsFrom]
  | cons b bs ih =>
      rw [runsFrom]
      split
      · rw [ih, List.length_cons]
        omega
      · rw [List.map_cons, List.sum_cons, ih, List.length_cons]
        omega

theorem runs_pos (x : Bytes) : ∀ r ∈ runs x, 0 < r.2 := by
  cases x with
  | nil => exact nofun
  | cons b bs => exact runsFrom_pos Nat.one_pos bs

theorem sum_runs (x : Bytes) : ((runs x).map Prod.snd).sum = x.length := by
  cases x with
  | nil => rfl
  | cons b bs => rw [runs, sum_runsFrom, List.length_cons, Nat.add_comm]

theorem runLengthLoop_run {input : Bytes} {i n fuel : Nat} {v : UInt8} (hfuel : kRleMaxTokenLen < n + fuel)
    (hn : n ≤ kRleMaxTokenLen) :
    ∃ m, runLengthLoop input i v fuel n = .ok m ∧ n ≤ m ∧ m ≤ kRleMaxTokenLen ∧
      runsFrom v n (input.drop (i + n)) = (v, m) :: runs (input.drop (i + m)) ∧
      input.drop (i + n) = List.replicate (m - n) v ++ input.drop (i + m) := by
  induction fuel generalizing n with
  | zero => omega
  | succ fuel ih =>
      rw [runLengthLoop]
      by_cases hmore : input[i + n]? = some v ∧ n < kRleMaxTokenLen
      · rw [if_pos hmore]
        rcases List.getElem?_eq_some_iff.mp hmore.1 with ⟨hlt, hget⟩
        have hdrop : input.drop (i + n) = v :: input.drop (i + (n + 1)) := by
          rw [List.drop_eq_getElem_cons hlt, hget, Nat.add_assoc]
        rcases @ih (n + 1) (by omega) hmore.2 with ⟨m, hrun, hle, hcap, hruns, hsplit⟩
        refine ⟨m, hrun, by omega, hcap, ?_, ?_⟩
        · rw [hdrop, runsFrom, if_pos ⟨rfl, hmore.2⟩, hruns]
        · have hcount : m - n = m - (n + 1) + 1 := by omega
          rw [hdrop, hsplit, hcount, List.replicate_succ, List.cons_append]
      · rw [if_neg hmore]
        refine ⟨n, rfl, le_rfl, hn, ?_, by simp⟩
        cases hdrop : input.drop (i + n) with
        | nil => rfl
        | cons b bs =>
            have hget : input[i + n]? = some b := (getElem?_of_drop hdrop).1
            have hstop : ¬ (b = v ∧ n < kRleMaxTokenLen) := fun h => hmore ⟨by rw [hget, h.1], h.2⟩
            rw [runsFrom, if_neg hstop]
            rfl

/-- `run_length` finds the first of the runs that the input has from `i` on. -/
theorem runLength_run {input : Bytes} {i : Nat} (hi : i < input.length) :
    ∃ v m, runLength input i = .ok m ∧ input[i]? = some v ∧ 0 < m ∧ m ≤ kRleMaxTokenLen ∧
      runs (input.drop i) = (v, m) :: runs (input.drop (i + m)) ∧
      input.drop i = List.replicate m v ++ input.drop (i + m) := by
  have hget : input[i]? = some input[i] := List.getElem?_eq_getElem hi
  have hdrop : input.drop i = input[i] :: input.drop (i + 1) := List.drop_eq_getElem_cons hi
  rcases @runLengthLoop_run input i 1 (kRleMaxTokenLen + 1) input[i] (by omega) (by decide) with
    ⟨m, hrun, hle, hcap, hruns, hsplit⟩
  refine ⟨input[i], m, ?_, hget, hle, hcap, ?_, ?_⟩
  · rw [runLength, hget]
    exact hrun
  · rw [hdrop, runs, hruns]
  · have hcount : List.replicate m input[i] = input[i] :: List.replicate (m - 1) input[i] := by
      rw [← List.replicate_succ, Nat.sub_add_cancel hle]
    rw [hdrop, hsplit, hcount, List.cons_append]

/-! ### What the output takes -/

/-- What flushing `k` pending literals takes. -/
def flushCost (k : Nat) : Nat := if k = 0 then 0 else k + 1

/-- What the rest of the input takes, in runs, when `k` literals are pending. -/
def cost (k : Nat) : List (UInt8 × Nat) → Nat
  | [] => flushCost k
  | r :: rs =>
    if r.2 = 1 then if k = kRleMaxTokenLen then flushCost k + cost 1 rs else cost (k + 1) rs
    else flushCost k + 2 + cost 0 rs

/-- The longest stretches of single bytes between runs, behind `k` single bytes. -/
def stretches (k : Nat) : List Nat → List Nat
  | [] => [k]
  | n :: ns => if n = 1 then stretches (k + 1) ns else k :: stretches 0 ns

/-- The literal tokens that the stretches take, each as few as it can. -/
def literalPieces (k : Nat) (ns : List Nat) : Nat :=
  ((stretches k ns).map fun k => (k + (kRleMaxTokenLen - 1)) / kRleMaxTokenLen).sum

/-- The bytes of a run that come after its second. -/
def spare (ns : List Nat) : Nat := (ns.map (· - 2)).sum

theorem literalPieces_single (k : Nat) (ns : List Nat) :
    literalPieces k (1 :: ns) = literalPieces (k + 1) ns := rfl

theorem literalPieces_run {k n : Nat} (hn : n ≠ 1) (ns : List Nat) :
    literalPieces k (n :: ns) =
      (k + (kRleMaxTokenLen - 1)) / kRleMaxTokenLen + literalPieces 0 ns := by
  rw [literalPieces, stretches, if_neg hn, List.map_cons, List.sum_cons]
  rfl

theorem literalPieces_full (k : Nat) (ns : List Nat) :
    literalPieces (kRleMaxTokenLen + k) ns = literalPieces k ns + 1 := by
  have hdiv : ∀ k, (kRleMaxTokenLen + k + (kRleMaxTokenLen - 1)) / kRleMaxTokenLen =
      (k + (kRleMaxTokenLen - 1)) / kRleMaxTokenLen + 1 := by
    intro k
    rw [kRleMaxTokenLen]
    omega
  induction ns generalizing k with
  | nil => simpa [literalPieces, stretches] using hdiv k
  | cons n ns ih =>
      by_cases hn : n = 1
      · rw [hn, literalPieces_single, literalPieces_single, Nat.add_assoc, ih]
      · rw [literalPieces_run hn, literalPieces_run hn, hdiv]
        omega

theorem flushCost_eq {k : Nat} (hk : k ≤ kRleMaxTokenLen) :
    flushCost k = k + (k + (kRleMaxTokenLen - 1)) / kRleMaxTokenLen := by
  rw [kRleMaxTokenLen] at *
  rw [flushCost]
  split <;> omega

/-- Every literal token costs one byte more than it holds, and every run two bytes. -/
theorem cost_eq {k : Nat} {rs : List (UInt8 × Nat)} (hk : k ≤ kRleMaxTokenLen) (hrs : ∀ r ∈ rs, 0 < r.2) :
    cost k rs + spare (rs.map Prod.snd) =
      k + (rs.map Prod.snd).sum + literalPieces k (rs.map Prod.snd) := by
  induction rs generalizing k with
  | nil =>
      have hflush := flushCost_eq hk
      simpa [cost, spare, literalPieces, stretches] using hflush
  | cons r rs ih =>
      rcases List.forall_mem_cons.mp hrs with ⟨hr, hrs⟩
      have hspare : spare ((r :: rs).map Prod.snd) = r.2 - 2 + spare (rs.map Prod.snd) := rfl
      have hflush := flushCost_eq hk
      rw [hspare, List.map_cons, List.sum_cons, cost]
      by_cases hone : r.2 = 1
      · rw [if_pos hone, hone, literalPieces_single]
        by_cases hfull : k = kRleMaxTokenLen
        · have ih := @ih 1 (by decide) hrs
          have hpieces := literalPieces_full 1 (rs.map Prod.snd)
          subst hfull
          have hcost : flushCost kRleMaxTokenLen = kRleMaxTokenLen + 1 := rfl
          rw [if_pos rfl, hpieces, hcost]
          omega
        · have ih := @ih (k + 1) (by omega) hrs
          rw [if_neg hfull]
          omega
      · have ih := @ih 0 (Nat.zero_le _) hrs
        rw [if_neg hone, literalPieces_run hone]
        omega

/-! ### The loop -/

/-- What the compressor has written stands for the input up to its pending literals. -/
structure Compressed (input : Bytes) (c : Compressor) (ts : List Token) : Prop where
  spelled : c.out = encode ts
  expanded : expand ts = input.take c.litStart
  pending : c.litStart + c.litLen = c.i
  within : c.i ≤ input.length
  capped : c.litLen ≤ kRleMaxTokenLen

variable {input : Bytes} {c : Compressor} {ts : List Token}

/-- The pending literals make one token, if there are any. -/
theorem Compressed.flushLiteral (h : Compressed input c ts) :
    ∃ c' ts', c.flushLiteral input = .ok c' ∧ Compressed input c' ts' ∧ c'.i = c.i ∧ c'.litStart = c.i ∧
      c'.litLen = 0 ∧ c'.out.length = c.out.length + flushCost c.litLen := by
  have hpending := h.pending
  have hwithin := h.within
  have hcapped := h.capped
  rw [Compressor.flushLiteral, Compressor.flushLoop]
  by_cases hempty : c.litLen = 0
  · have hstart : c.litStart = c.i := by omega
    refine ⟨c, ts, ?_, h, rfl, hstart, hempty, ?_⟩
    · rw [if_neg (by omega)]
      rfl
    · rw [hempty]
      rfl
  · let lit := (input.drop c.litStart).take c.litLen
    have hlength : lit.length = c.litLen := by
      rw [List.length_take, List.length_drop]
      omega
    let tok : Token := .literal lit (by omega) (by omega)
    have htake : (if c.litLen < kRleMaxTokenLen then c.litLen else kRleMaxTokenLen) = c.litLen := by
      split <;> omega
    have hemit : emitLiteral c.out input c.litStart c.litLen = .ok (c.out ++ tok.bytes) := by
      rw [emitLiteral, if_pos (by omega), Token.bytes, hlength]
      rfl
    have hdone : ∀ c' : Compressor, c'.litLen = 0 → c'.flushLoop input c.litLen = .ok c' := by
      intro c' hc'
      cases hfuel : c.litLen with
      | zero => exact absurd hfuel hempty
      | succ fuel =>
          rw [Compressor.flushLoop, if_neg (by omega)]
          rfl
    refine ⟨{ c with out := c.out ++ tok.bytes, litStart := c.litStart + c.litLen, litLen := 0 },
      ts ++ [tok], ?_, ?_, rfl, hpending, rfl, ?_⟩
    · rw [if_pos (by omega)]
      simp only [htake, hemit, bind, Except.bind, Nat.sub_self]
      exact hdone _ rfl
    · constructor
      case spelled => simp [h.spelled]
      case expanded =>
        change expand (ts ++ [tok]) = input.take (c.litStart + c.litLen)
        rw [expand_append, h.expanded, List.take_add]
        simp [tok, Token.expansion, lit]
      case pending => exact hpending
      case within => exact hwithin
      case capped => exact Nat.zero_le _
    · rw [flushCost, if_neg hempty, List.length_append, Token.bytes, List.length_cons, hlength]

/-- A byte of its own joins the pending literals. -/
theorem Compressed.extend (h : Compressed input c ts) (hi : c.i < input.length)
    (hroom : c.litLen ≠ kRleMaxTokenLen) :
    Compressed input { c with litLen := c.litLen + 1, i := c.i + 1 } ts where
  spelled := h.spelled
  expanded := h.expanded
  pending := (Nat.add_assoc _ _ _).symm.trans (congrArg (· + 1) h.pending)
  within := hi
  capped := Nat.lt_of_le_of_ne h.capped hroom

/-- With no literals pending, it is the first of the next ones. -/
theorem Compressed.restart (h : Compressed input c ts) (hi : c.i < input.length) (hstart : c.litStart = c.i) :
    Compressed input { c with litStart := c.i, litLen := 1, i := c.i + 1 } ts where
  spelled := h.spelled
  expanded := hstart ▸ h.expanded
  pending := rfl
  within := hi
  capped := (by decide : 1 ≤ kRleMaxTokenLen)

/-- With no literals pending, a run makes a token. -/
theorem Compressed.run (h : Compressed input c ts) (hstart : c.litStart = c.i) {v : UInt8} {m : Nat}
    (hpos : 0 < m) (hcap : m ≤ kRleMaxTokenLen)
    (hsplit : input.drop c.i = List.replicate m v ++ input.drop (c.i + m)) :
    Compressed input { i := c.i + m, litStart := c.i + m, litLen := 0, out := emitRun c.out v m }
      (ts ++ [.run v m hpos hcap]) := by
  constructor
  case spelled => simp [emitRun, h.spelled, Token.bytes]
  case expanded =>
    have htake : (input.drop c.i).take m = List.replicate m v := by
      rw [hsplit, List.take_left' List.length_replicate]
    change expand (ts ++ [.run v m hpos hcap]) = input.take (c.i + m)
    rw [expand_append, h.expanded, hstart, List.take_add, htake]
    simp [Token.expansion]
  case pending => rfl
  case within =>
    have hlength := congrArg List.length hsplit
    rw [List.length_append, List.length_replicate, List.length_drop, List.length_drop] at hlength
    change c.i + m ≤ input.length
    omega
  case capped => exact Nat.zero_le _

/-- A round takes one run of the input. -/
theorem Compressed.round (h : Compressed input c ts) (hi : c.i < input.length) :
    ∃ c' ts', c.round input = .ok c' ∧ Compressed input c' ts' ∧ c.i < c'.i ∧
      c'.out.length + cost c'.litLen (runs (input.drop c'.i)) =
        c.out.length + cost c.litLen (runs (input.drop c.i)) := by
  rcases runLength_run hi with ⟨v, m, hrun, hget, hpos, hcap, hruns, hsplit⟩
  rcases h.flushLiteral with ⟨c₁, ts₁, hflush, h₁, hi₁, hstart₁, hlit₁, hout₁⟩
  rw [hruns, cost, Compressor.round, hrun]
  by_cases hone : m = 1
  · subst hone
    by_cases hfull : c.litLen = kRleMaxTokenLen
    · have hnext := h₁.restart (hi₁ ▸ hi) (hstart₁.trans hi₁.symm)
      rw [hi₁] at hnext
      refine ⟨_, ts₁, ?_, hnext, Nat.lt_succ_self _, ?_⟩
      · simp [hfull, hflush, hi₁, hlit₁, bind, Except.bind, pure, Except.pure, Functor.map, Except.map]
      · rw [if_pos rfl, if_pos hfull, hout₁, Nat.add_assoc]
    · refine ⟨_, ts, ?_, h.extend hi hfull, Nat.lt_succ_self _, ?_⟩
      · simp [hfull, bind, Except.bind, pure, Except.pure]
      · rw [if_pos rfl, if_neg hfull]
  · have hnext := h₁.run (hstart₁.trans hi₁.symm) hpos hcap (hi₁ ▸ hsplit)
    rw [hi₁] at hnext
    refine ⟨_, _, ?_, hnext, Nat.lt_add_of_pos_right hpos, ?_⟩
    · have htwo : m ≥ 2 := by omega
      simp only [bind, Except.bind, if_pos htwo, hflush, hi₁, hget]
      rfl
    · rw [if_neg hone, emitRun, List.length_append, hout₁]
      simp only [List.length_cons, List.length_nil]
      omega

theorem Compressed.loop {fuel : Nat} (hfuel : input.length - c.i < fuel) (h : Compressed input c ts) :
    ∃ c' ts', Compressor.loop input fuel c = .ok c' ∧ Compressed input c' ts' ∧ c'.i = input.length ∧
      c'.out.length + flushCost c'.litLen = c.out.length + cost c.litLen (runs (input.drop c.i)) := by
  induction fuel generalizing c ts with
  | zero => exact absurd hfuel (Nat.not_lt_zero _)
  | succ fuel ih =>
      have hwithin := h.within
      rw [Compressor.loop]
      by_cases hi : c.i < input.length
      · rcases h.round hi with ⟨c₁, ts₁, hround, h₁, hlt, hcost⟩
        rcases ih (by omega) h₁ with ⟨c', ts', hrun, h', hend, hcost'⟩
        refine ⟨c', ts', ?_, h', hend, hcost'.trans hcost⟩
        simp only [if_pos hi, hround, bind, Except.bind, hrun]
      · have hend : c.i = input.length := by omega
        refine ⟨c, ts, by rw [if_neg hi]; rfl, h, hend, ?_⟩
        rw [hend, List.drop_length, runs, cost]

/-- Compression always returns: tokens that stand for the input. -/
theorem rleCompress_run (x : Bytes) :
    ∃ ts, rleCompress x = .ok (encode ts) ∧ expand ts = x ∧ (encode ts).length = cost 0 (runs x) := by
  have hstart : Compressed x {} [] := by
    constructor
    case spelled => rfl
    case expanded => rfl
    case pending => rfl
    case within => exact Nat.zero_le _
    case capped => exact Nat.zero_le _
  rcases hstart.loop (Nat.lt_succ_of_le (Nat.sub_le _ _)) with ⟨c, ts, hrun, h, hend, hcost⟩
  rcases h.flushLiteral with ⟨c', ts', hflush, h', -, hstart', -, hout⟩
  refine ⟨ts', ?_, ?_, ?_⟩
  · simp only [rleCompress, hrun, hflush, bind, Except.bind, ← h'.spelled]
    rfl
  · rw [h'.expanded, hstart', hend, List.take_length]
  · rw [← h'.spelled, hout, hcost]
    exact Nat.zero_add _

/-- Round trip: what compression makes of `x` is decompressed to `x`, under any cap that `x` meets. -/
theorem rleDecompress_rleCompress (x : Bytes) (maxOutput : Nat) (h : x.length ≤ maxOutput) :
    (rleCompress x >>= fun packed => rleDecompress packed maxOutput []) = .ok (.kOk, x) := by
  rcases rleCompress_run x with ⟨ts, hrun, hexpand, -⟩
  rcases rleDecompress_run (encode ts) maxOutput with ⟨status, out, hdecompress, hspec⟩
  have hfits : (expand ts).length ≤ maxOutput := by rwa [hexpand]
  have hstatus : status = .kOk := hspec.ok_iff.mpr ⟨ts, rfl, hfits⟩
  have hout : out = x := (hspec.expanded ts rfl hfits).trans hexpand
  rw [hrun, ← hout, ← hstatus]
  exact hdecompress

/-- A run of three behind a literal, in a cap of four. -/
theorem rleDecompress_rleCompress_run :
    (rleCompress [7, 9, 9, 9] >>= fun packed => rleDecompress packed 4 []) = .ok (.kOk, [7, 9, 9, 9]) :=
  rleDecompress_rleCompress [7, 9, 9, 9] 4 (by decide)

/-- The lengths of the runs of `x`. -/
def runLengths (x : Bytes) : List Nat := (runs x).map Prod.snd

/-- The bound of `rle_compress` holds exactly for the inputs whose runs have enough bytes to spare for
the literal tokens. -/
theorem rleCompress_length_iff (x : Bytes) :
    ∃ out, rleCompress x = .ok out ∧
      (out.length ≤ x.length + (x.length + 127) / 128 ↔
        literalPieces 0 (runLengths x) ≤ spare (runLengths x) + (x.length + 127) / 128) := by
  rcases rleCompress_run x with ⟨ts, hrun, -, hlength⟩
  refine ⟨encode ts, hrun, ?_⟩
  have hcost := cost_eq (Nat.zero_le _) (runs_pos x)
  rw [sum_runs, ← hlength] at hcost
  change _ + spare (runLengths x) = 0 + x.length + literalPieces 0 (runLengths x) at hcost
  omega

/-- Two literals and two runs of two: eight bytes for six. -/
theorem rleCompress_exceeds :
    ¬ ∀ x out : Bytes, rleCompress x = .ok out → out.length ≤ x.length + (x.length + 127) / 128 := by
  intro h
  have hlength := h [1, 2, 2, 3, 4, 4] [0, 1, 0x81, 2, 0, 3, 0x81, 4] (by decide +kernel)
  exact absurd hlength (by decide)

end Bytewright.Streamcodec
