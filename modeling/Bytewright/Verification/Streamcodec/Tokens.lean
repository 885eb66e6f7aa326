import Bytewright.Library.Endian
import Bytewright.Model.Streamcodec.Transform

/-! # What decompression makes of a token stream -/

namespace Bytewright.Streamcodec

open Bytewright.Common Bytewright.Library

/-! ### Tokens -/

/-- A token of the run-length transform, for at least one and at most `kRleMaxTokenLen` bytes. -/
inductive Token where
  | run (value : UInt8) (count : Nat) (hpos : 0 < count) (hcap : count ≤ kRleMaxTokenLen)
  | literal (data : Bytes) (hpos : 0 < data.length) (hcap : data.length ≤ kRleMaxTokenLen)

namespace Token

/-- How the token is spelled. -/
def bytes : Token → Bytes
  | run value count _ _ => [0x80 ||| UInt8.ofNat (count - 1), value]
  | literal data _ _ => UInt8.ofNat (data.length - 1) :: data

/-- What the token stands for. -/
def expansion : Token → Bytes
  | run value count _ _ => List.replicate count value
  | literal data _ _ => data

end Token

def encode (ts : List Token) : Bytes := ts.flatMap Token.bytes

def expand (ts : List Token) : Bytes := ts.flatMap Token.expansion

@[simp] theorem encode_nil : encode [] = [] := rfl

@[simp] theorem expand_nil : expand [] = [] := rfl

@[simp] theorem encode_cons (tok : Token) (ts : List Token) :
    encode (tok :: ts) = tok.bytes ++ encode ts := rfl

@[simp] theorem expand_cons (tok : Token) (ts : List Token) :
    expand (tok :: ts) = tok.expansion ++ expand ts := rfl

@[simp] theorem encode_append (ts ts' : List Token) : encode (ts ++ ts') = encode ts ++ encode ts' :=
  List.flatMap_append

@[simp] theorem expand_append (ts ts' : List Token) : expand (ts ++ ts') = expand ts ++ expand ts' :=
  List.flatMap_append

/-! ### Control bytes -/

theorem run_control {n : Nat} (hn : n < kRleMaxTokenLen) :
    (0x80 ||| UInt8.ofNat n) &&& 0x80 ≠ 0 ∧ ((0x80 ||| UInt8.ofNat n) &&& 0x7F).toNat = n := by
  have h : ∀ n : Fin kRleMaxTokenLen, (0x80 ||| UInt8.ofNat n.val) &&& 0x80 ≠ 0 ∧
      ((0x80 ||| UInt8.ofNat n.val) &&& 0x7F).toNat = n.val := by decide +kernel
  exact h ⟨n, hn⟩

theorem literal_control {n : Nat} (hn : n < kRleMaxTokenLen) :
    UInt8.ofNat n &&& 0x80 = 0 ∧ (UInt8.ofNat n &&& 0x7F).toNat = n := by
  have h : ∀ n : Fin kRleMaxTokenLen, UInt8.ofNat n.val &&& 0x80 = 0 ∧
      (UInt8.ofNat n.val &&& 0x7F).toNat = n.val := by decide +kernel
  exact h ⟨n, hn⟩

/-- A control byte says which token it begins, and for how many bytes. -/
theorem control_eq (c : UInt8) :
    (c &&& 0x7F).toNat < kRleMaxTokenLen ∧
      c = if c &&& 0x80 = 0 then UInt8.ofNat (c &&& 0x7F).toNat
        else 0x80 ||| UInt8.ofNat (c &&& 0x7F).toNat := by
  revert c
  exact forall_byte (by decide +kernel)

namespace Token

theorem bytes_ne_nil (tok : Token) : tok.bytes ≠ [] := by
  cases tok <;> exact List.cons_ne_nil _ _

/-- No token is spelled by the beginning of another one. -/
theorem bytes_inj {tok tok' : Token} {rest rest' : Bytes} (h : tok.bytes ++ rest = tok'.bytes ++ rest') :
    tok = tok' ∧ rest = rest' := by
  have hkind : ∀ {m n : Nat}, m < kRleMaxTokenLen → n < kRleMaxTokenLen →
      0x80 ||| UInt8.ofNat m ≠ UInt8.ofNat n := by
    intro m n hm hn heq
    have hrun := (run_control hm).1
    rw [heq] at hrun
    exact hrun (literal_control hn).1
  cases tok with
  | run value count hpos hcap =>
      have hrun := (run_control (n := count - 1) (by omega)).2
      cases tok' with
      | run value' count' hpos' hcap' =>
          have hrun' := (run_control (n := count' - 1) (by omega)).2
          simp only [bytes, List.cons_append, List.nil_append, List.cons.injEq] at h
          rcases h with ⟨hcontrol, rfl, rfl⟩
          rw [hcontrol, hrun'] at hrun
          have hcount : count = count' := by omega
          subst hcount
          exact ⟨rfl, rfl⟩
      | literal data hpos' hcap' =>
          simp only [bytes, List.cons_append, List.cons.injEq] at h
          exact absurd h.1 (hkind (by omega) (by omega))
  | literal data hpos hcap =>
      have hliteral := (literal_control (n := data.length - 1) (by omega)).2
      cases tok' with
      | run value' count' hpos' hcap' =>
          simp only [bytes, List.cons_append, List.cons.injEq] at h
          exact absurd h.1.symm (hkind (by omega) (by omega))
      | literal data' hpos' hcap' =>
          have hliteral' := (literal_control (n := data'.length - 1) (by omega)).2
          simp only [bytes, List.cons_append, List.cons.injEq] at h
          rw [h.1, hliteral'] at hliteral
          rcases List.append_inj h.2 (by omega) with ⟨rfl, rfl⟩
          exact ⟨rfl, rfl⟩

end Token

/-- The bytes begin a token but end inside of it. -/
def Torn (bs : Bytes) : Prop := bs ≠ [] ∧ ∀ (tok : Token) (rest : Bytes), bs ≠ tok.bytes ++ rest

/-! ### The loop -/

section

variable {data out bs : Bytes} {c fuel pos : Nat}

theorem decompressLoop_end (h : data.drop pos = []) :
    decompressLoop data c (fuel + 1) pos out = .ok (.kOk, out) := by
  rw [decompressLoop, if_neg (Nat.not_lt.mpr (List.drop_eq_nil_iff.mp h))]
  rfl

theorem getElem?_of_drop {b : UInt8} (h : data.drop pos = b :: bs) :
    data[pos]? = some b ∧ pos < data.length ∧ data.drop (pos + 1) = bs ∧
      data.length = pos + 1 + bs.length := by
  have hget : data[pos]? = some b := by rw [← List.head?_drop, h]; rfl
  have hdrop : data.drop (pos + 1) = bs := by rw [← List.tail_drop, h]; rfl
  have hlength := congrArg List.length h
  rw [List.length_drop, List.length_cons] at hlength
  exact ⟨hget, by omega, hdrop, by omega⟩

/-- A complete token is expanded, unless that would pass the cap. -/
theorem decompressLoop_token (tok : Token) (h : data.drop pos = tok.bytes ++ bs) :
    decompressLoop data c (fuel + 1) pos out =
      if out.length + tok.expansion.length > c then .ok (.kCapExceeded, out)
      else decompressLoop data c fuel (pos + tok.bytes.length) (out ++ tok.expansion) := by
  cases tok with
  | run value count hpos hcap =>
      rcases run_control (n := count - 1) (by omega) with ⟨hkind, hcount⟩
      rcases getElem?_of_drop h with ⟨hget, hlt, hdrop, -⟩
      rcases getElem?_of_drop hdrop with ⟨hvalue, hmore, -, -⟩
      have hsize : count - 1 + 1 = count := by omega
      simp only [decompressLoop, if_pos hlt, hget, hkind, hcount, hsize, ne_eq, not_false_eq_true,
        if_true, ge_iff_le, if_neg (Nat.not_le.mpr hmore), hvalue, Token.expansion,
        List.length_replicate]
      split <;> rfl
  | literal lit hpos hcap =>
      rcases literal_control (n := lit.length - 1) (by omega) with ⟨hkind, hcount⟩
      have h : data.drop pos = UInt8.ofNat (lit.length - 1) :: (lit ++ bs) := h
      rcases getElem?_of_drop h with ⟨hget, hlt, hdrop, hlength⟩
      rw [List.length_append] at hlength
      have hsize : lit.length - 1 + 1 = lit.length := by omega
      have hfits : ¬ pos + 1 + lit.length > data.length := by omega
      have htake : (lit ++ bs).take lit.length = lit := List.take_left
      have hnext : pos + 1 + lit.length = pos + (Token.literal lit hpos hcap).bytes.length := by
        rw [Token.bytes, List.length_cons]
        omega
      rw [← hnext]
      change _ = if out.length + lit.length > c then Except.ok (.kCapExceeded, out)
        else decompressLoop data c fuel (pos + 1 + lit.length) (out ++ lit)
      simp only [decompressLoop, if_pos hlt, hget, hkind, hcount, hsize, ne_eq, not_true_eq_false,
        if_false, if_neg hfits, hdrop, htake]
      by_cases hover : out.length + lit.length > c
      · simp only [if_pos hover]
        rfl
      · simp only [if_neg hover]

/-- A torn token is malformed. -/
theorem decompressLoop_torn (h : Torn (data.drop pos)) :
    decompressLoop data c (fuel + 1) pos out = .ok (.kMalformed, out) := by
  rcases h with ⟨hne, htorn⟩
  rcases List.exists_cons_of_ne_nil hne with ⟨control, bs, h⟩
  rcases getElem?_of_drop h with ⟨hget, hlt, hdrop, hlength⟩
  rcases control_eq control with ⟨hcount, hcontrol⟩
  by_cases hkind : control &&& 0x80 = 0
  · have hshort : pos + 1 + ((control &&& 0x7F).toNat + 1) > data.length := by
      by_contra hfits
      have htake : (bs.take ((control &&& 0x7F).toNat + 1)).length = (control &&& 0x7F).toNat + 1 := by
        rw [List.length_take]
        omega
      refine htorn (.literal (bs.take ((control &&& 0x7F).toNat + 1)) (by omega) (by omega))
        (bs.drop ((control &&& 0x7F).toNat + 1)) ?_
      rw [if_pos hkind] at hcontrol
      rw [h, Token.bytes, htake, Nat.add_sub_cancel, ← hcontrol, List.cons_append,
        List.take_append_drop]
    simp only [decompressLoop, if_pos hlt, hget, hkind, ne_eq, not_true_eq_false, if_false,
      if_pos hshort]
    rfl
  · have hshort : data.length ≤ pos + 1 := by
      by_contra hmore
      cases bs with
      | nil => exact hmore (by rw [hlength, List.length_nil])
      | cons value bs =>
          refine htorn (.run value ((control &&& 0x7F).toNat + 1) (by omega) (by omega)) bs ?_
          rw [if_neg hkind] at hcontrol
          rw [h, Token.bytes, Nat.add_sub_cancel, ← hcontrol]
          rfl
    simp only [decompressLoop, if_pos hlt, hget, hkind, ne_eq, not_false_eq_true, if_true, ge_iff_le,
      if_pos hshort]
    rfl

/-- Why decompression stops in front of `rest`, with `n` bytes decoded. -/
inductive Stops (c n : Nat) : RleStatus → Bytes → Prop where
  | done : Stops c n .kOk []
  | torn {rest : Bytes} (h : Torn rest) : Stops c n .kMalformed rest
  | full {tok : Token} {rest : Bytes} (h : c < n + tok.expansion.length) :
      Stops c n .kCapExceeded (tok.bytes ++ rest)

/-- The loop decodes complete tokens as long as they fit. -/
theorem decompressLoop_run (hfuel : (data.drop pos).length < fuel) (hout : out.length ≤ c) :
    ∃ ts rest status, data.drop pos = encode ts ++ rest ∧
      decompressLoop data c fuel pos out = .ok (status, out ++ expand ts) ∧
      (out ++ expand ts).length ≤ c ∧ Stops c (out ++ expand ts).length status rest := by
  induction fuel generalizing pos out with
  | zero => exact absurd hfuel (Nat.not_lt_zero _)
  | succ fuel ih =>
      by_cases hend : data.drop pos = []
      · exact ⟨[], [], .kOk, hend, by simpa using decompressLoop_end hend, by simpa, .done⟩
      · by_cases htorn : Torn (data.drop pos)
        · exact ⟨[], data.drop pos, .kMalformed, rfl, by simpa using decompressLoop_torn htorn, by simpa,
            .torn htorn⟩
        · have htoken : ∃ (tok : Token) (rest : Bytes), data.drop pos = tok.bytes ++ rest := by
            by_contra hnone
            exact htorn ⟨hend, fun tok rest heq => hnone ⟨tok, rest, heq⟩⟩
          rcases htoken with ⟨tok, rest, htoken⟩
          have hstep := @decompressLoop_token data out rest c fuel pos tok htoken
          by_cases hover : out.length + tok.expansion.length > c
          · rw [if_pos hover] at hstep
            refine ⟨[], tok.bytes ++ rest, .kCapExceeded, htoken, by simpa using hstep, by simpa, ?_⟩
            exact .full (by simpa using hover)
          · have hrest : data.drop (pos + tok.bytes.length) = rest := by
              rw [← List.drop_drop, htoken, List.drop_left]
            have hlength := congrArg List.length htoken
            have hpos := List.length_pos_iff.mpr tok.bytes_ne_nil
            rw [List.length_append] at hlength
            rcases @ih (out ++ tok.expansion) (pos + tok.bytes.length) (by rw [hrest]; omega)
              (by rw [List.length_append]; omega) with ⟨ts, last, status, hts, hrun, hcap, hstops⟩
            rw [List.append_assoc] at hrun hcap hstops
            refine ⟨tok :: ts, last, status, ?_, ?_, hcap, hstops⟩
            · rw [htoken, ← hrest, hts, encode_cons, List.append_assoc]
            · rw [hstep, if_neg hover, hrun, expand_cons]

end

/-! ### The tokens of a byte string -/

/-- Tokens that fit behind `n` bytes are among `ts`, if decompression stops behind those. -/
theorem prefix_of_stops_from {c n : Nat} {status : RleStatus} {ts ts' : List Token} {rest rest' : Bytes}
    (hstops : Stops c (n + (expand ts).length) status rest)
    (heq : encode ts ++ rest = encode ts' ++ rest') (hfits : n + (expand ts').length ≤ c) :
    ts' <+: ts := by
  induction ts generalizing n ts' with
  | nil =>
      cases ts' with
      | nil => exact List.nil_prefix
      | cons tok ts' =>
          rw [encode_nil, List.nil_append, encode_cons, List.append_assoc] at heq
          cases hstops with
          | done => exact absurd (List.append_eq_nil_iff.mp heq.symm).1 tok.bytes_ne_nil
          | torn h => exact absurd heq (h.2 tok _)
          | full h =>
              rcases Token.bytes_inj heq with ⟨rfl, -⟩
              simp only [expand_nil, List.length_nil, expand_cons, List.length_append] at h hfits
              omega
  | cons tok ts ih =>
      cases ts' with
      | nil => exact List.nil_prefix
      | cons tok' ts' =>
          rw [encode_cons, encode_cons, List.append_assoc, List.append_assoc] at heq
          rcases Token.bytes_inj heq with ⟨rfl, htail⟩
          rw [expand_cons, List.length_append, ← Nat.add_assoc] at hstops hfits
          exact (List.prefix_cons_inj tok).mpr (ih hstops htail hfits)

theorem expand_prefix {ts ts' : List Token} (h : ts <+: ts') : expand ts <+: expand ts' := by
  rcases h with ⟨more, rfl⟩
  rw [expand_append]
  exact List.prefix_append ..

theorem prefix_of_stops {c : Nat} {status : RleStatus} {ts ts' : List Token} {rest rest' : Bytes}
    (hstops : Stops c (expand ts).length status rest)
    (heq : encode ts ++ rest = encode ts' ++ rest') (hfits : (expand ts').length ≤ c) : ts' <+: ts := by
  rw [← Nat.zero_add (expand ts).length] at hstops
  exact prefix_of_stops_from hstops heq (by omega)

/-- When all of a token stream fits, decompression stops at its end. -/
theorem done_of_stops {c : Nat} {status : RleStatus} {ts ts' : List Token} {rest : Bytes}
    (hstops : Stops c (expand ts).length status rest) (heq : encode ts ++ rest = encode ts')
    (hfits : (expand ts').length ≤ c) : status = .kOk ∧ ts = ts' := by
  have hall : encode ts ++ rest = encode ts' ++ [] := heq.trans (List.append_nil _).symm
  have hprefix : ts' <+: ts := prefix_of_stops hstops hall hfits
  rcases hprefix with ⟨more, rfl⟩
  rw [encode_append, List.append_assoc] at heq
  have hnil : encode more ++ rest = [] := List.append_right_eq_self.mp heq
  rcases List.append_eq_nil_iff.mp hnil with ⟨hmore, rfl⟩
  have hstatus : status = .kOk := by
    generalize hrest : ([] : Bytes) = rest at hstops
    cases hstops with
    | done => rfl
    | torn h => exact absurd hrest.symm h.1
    | full h => exact absurd (List.append_eq_nil_iff.mp hrest.symm).1 (Token.bytes_ne_nil _)
  cases more with
  | nil => exact ⟨hstatus, List.append_nil ts'⟩
  | cons tok more => exact absurd (List.append_eq_nil_iff.mp hmore).1 tok.bytes_ne_nil

/-- What decompression of `data` under a cap returns: `out` is the expansion of the longest prefix of
complete tokens that fits. -/
structure Decompresses (data : Bytes) (c : Nat) (status : RleStatus) (out : Bytes) : Prop where
  capped : out.length ≤ c
  ok_iff : status = .kOk ↔ ∃ ts, data = encode ts ∧ (expand ts).length ≤ c
  expanded : ∀ ts, data = encode ts → (expand ts).length ≤ c → out = expand ts
  longest : ∃ ts rest, data = encode ts ++ rest ∧ out = expand ts ∧
    Stops c (expand ts).length status rest ∧
    ∀ ts' rest', data = encode ts' ++ rest' → (expand ts').length ≤ c → ts' <+: ts

theorem rleDecompress_run (data : Bytes) (c : Nat) :
    ∃ status out, rleDecompress data c [] = .ok (status, out) ∧ Decompresses data c status out := by
  rcases @decompressLoop_run data [] c (data.length + 1) 0 (Nat.lt_succ_self _) (Nat.zero_le _) with
    ⟨ts, rest, status, hdata, hrun, hcap, hstops⟩
  rw [List.nil_append] at hrun hcap hstops
  have hdata : data = encode ts ++ rest := hdata
  refine ⟨status, expand ts, hrun, ?_⟩
  constructor
  case capped => exact hcap
  case ok_iff =>
    constructor
    · rintro rfl
      cases hstops with
      | done => exact ⟨ts, by rw [hdata, List.append_nil], hcap⟩
    · rintro ⟨ts', hdata', hfits⟩
      exact (done_of_stops hstops (hdata.symm.trans hdata') hfits).1
  case expanded =>
    intro ts' hdata' hfits
    rw [(done_of_stops hstops (hdata.symm.trans hdata') hfits).2]
  case longest =>
    exact ⟨ts, rest, hdata, rfl, hstops, fun ts' rest' hdata' hfits =>
      prefix_of_stops hstops (hdata.symm.trans hdata') hfits⟩

/-- Bounded decompression: no read outside `data`, no output beyond the cap, the exact expansion of
what fits, and a larger cap only extends it. -/
theorem rleDecompress_bounded (data : Bytes) (c : Nat) :
    ∃ status out, rleDecompress data c [] = .ok (status, out) ∧ Decompresses data c status out ∧
      ∀ c' status' out', c ≤ c' → rleDecompress data c' [] = .ok (status', out') → out <+: out' := by
  rcases rleDecompress_run data c with ⟨status, out, hrun, h⟩
  refine ⟨status, out, hrun, h, fun c' status' out' hle hrun' => ?_⟩
  rcases rleDecompress_run data c' with ⟨status₁, out₁, hrun₁, h'⟩
  obtain ⟨rfl, rfl⟩ := Prod.mk.inj (Except.ok.inj (hrun'.symm.trans hrun₁))
  have hcap := h.capped
  rcases h.longest with ⟨ts, rest, hdata, rfl, -, -⟩
  rcases h'.longest with ⟨ts', rest', -, rfl, -, hlongest⟩
  exact expand_prefix (hlongest ts rest hdata (le_trans hcap hle))

end Bytewright.Streamcodec
