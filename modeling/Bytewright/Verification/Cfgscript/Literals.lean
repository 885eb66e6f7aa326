import Bytewright.Verification.Cfgscript.Scanning

/-! # Integer literals

A decimal literal is converted exactly or refused. The digits of a hex literal go through a word of
64 bits, which drops what does not fit. -/

namespace Bytewright.Cfgscript

open Bytewright.Common Bytewright.Library

/-- An integer literal: decimal digits, or hex digits behind `0x` or `0X`. -/
inductive IntLiteral where
  | decimal (digits : Bytes)
  | hex (x : UInt8) (digits : Bytes)
  deriving DecidableEq, Repr

namespace IntLiteral

def text : IntLiteral → Bytes
  | decimal digits => digits
  | hex x digits => ch '0' :: x :: digits

/-- The number the digits spell. -/
def value : IntLiteral → Nat
  | decimal digits => decimalValue digits
  | hex _ digits => numeralValue 16 hexValue digits

/-- The largest value of a literal of this base. -/
def limit : IntLiteral → Nat
  | decimal _ => 2 ^ 63 - 1
  | hex _ _ => 2 ^ 64 - 1

/-- The integer the literal stands for: a hex literal gives the two's complement. -/
def reading (n : IntLiteral) : Int :=
  match n with
  | decimal _ => n.value
  | hex _ _ => (n.value : Int).bmod (2 ^ 64)

def isHex : IntLiteral → Bool
  | decimal _ => false
  | hex _ _ => true

/-- In front of `rest` the literal is scanned as an integer token, and no further. -/
def Before (n : IntLiteral) (rest : Bytes) : Prop :=
  match n with
  | decimal digits => digits ≠ [] ∧ (∀ c ∈ digits, isDigit c = true) ∧ EndsInteger digits rest
  | hex x digits =>
    (x = ch 'x' ∨ x = ch 'X') ∧ digits ≠ [] ∧ (∀ c ∈ digits, isHexDigit c = true) ∧
      Stops isHexDigit rest

/-- The scanner makes an integer token of the literal up to its limit, and throws beyond it. -/
structure Exact (n : IntLiteral) (rest : Bytes) (l : Lexer) : Prop where
  token (h : n.value ≤ n.limit) : ∃ t l', nextToken l = .ok t l' ∧ l'.rest = rest ∧
    t.kind = .kInt ∧ t.intValue.toInt = n.reading
  throws : (∃ e l', nextToken l = .error (.thrown e) l') ↔ n.limit < n.value

end IntLiteral

/-! ### Hex literals -/

theorem hexAccumulate_eq (digits : Bytes) :
    hexAccumulate digits = UInt64.ofNat (numeralValue 16 hexValue digits) :=
  word_numeralValue 16 hexValue digits

theorem toInt_hexAccumulate (digits : Bytes) : (hexAccumulate digits).toInt64.toInt =
    (numeralValue 16 hexValue digits : Int).bmod (2 ^ 64) := by
  rw [hexAccumulate_eq, UInt64.toInt64_ofNat', Int64.toInt_ofNat']
  rfl

/-- Whatever the digits, a hex literal is a token. -/
theorem lexToken_hex {x : UInt8} {digits rest : Bytes} {l : Lexer} (hx : x = ch 'x' ∨ x = ch 'X')
    (hne : digits ≠ []) (hdigits : ∀ c ∈ digits, isHexDigit c = true) (hrest : Stops isHexDigit rest)
    (hl : l.rest = ch '0' :: x :: (digits ++ rest)) :
    ∃ l', lexToken l =
        .ok { kind := .kInt, offset := l.pos, intValue := (hexAccumulate digits).toInt64 } l' ∧
      l'.rest = rest := by
  have hclass : isIdentStart (ch '0') = false ∧ isDigit (ch '0') = true := by decide
  have hpeek : l.peek 1 = x := Lexer.peek_one hl
  rcases advance_cons hl with ⟨l₁, hzero, hl₁⟩
  rcases advance_cons hl₁ with ⟨l₂, hmark, hl₂⟩
  rcases advanceWhile_run hdigits hrest hl₂ with ⟨l', hscan, hl'⟩
  refine ⟨l', ?_, hl'⟩
  simp [lexToken, bind_run, Lexer.atEnd_cons hl, Lexer.peek_cons hl, hclass, lexNumber, hpeek, hx,
    lexHex, hzero, hmark, hscan, hne]

/-! ### What the scanner makes of a literal -/

namespace IntLiteral

variable {n : IntLiteral} {rest : Bytes} {l : Lexer}

theorem solid_text (h : n.Before rest) : ∀ c ∈ (n.text ++ rest).head?, solid c = true := by
  cases n with
  | decimal digits => exact solid_digits h.1 h.2.1 rest
  | hex x digits =>
      have hzero : solid (ch '0') = true := by decide
      simpa [text] using hzero

/-- Decimal literals are exact. -/
theorem exact_decimal {digits : Bytes} (h : (decimal digits).Before rest)
    (hl : l.rest = (decimal digits).text ++ rest) : (decimal digits).Exact rest l := by
  rcases nextToken_run Blank.nil (solid_text h) hl with ⟨l₁, hnext, hl₁⟩
  rcases lexToken_digits h.1 h.2.1 h.2.2 hl₁ with ⟨l', htoken, hl'⟩
  rw [htoken] at hnext
  by_cases hvalue : decimalValue digits < 2 ^ 63
  · rw [decimalToken_run _ hvalue] at hnext
    have hlimit : ¬ (decimal digits).limit < (decimal digits).value :=
      Nat.not_lt.mpr (Nat.le_sub_one_of_lt hvalue)
    constructor
    · exact fun _ => ⟨_, l', hnext, hl', rfl, Int64.toInt_ofNat_of_lt hvalue⟩
    · simp [hnext, hlimit]
  · rw [decimalToken_throws _ (Nat.not_lt.mp hvalue)] at hnext
    have hlimit : (decimal digits).limit < (decimal digits).value :=
      Nat.lt_of_lt_of_le (Nat.sub_one_lt (by decide)) (Nat.not_lt.mp hvalue)
    constructor
    · exact fun hsmall => absurd hlimit (Nat.not_lt.mpr hsmall)
    · simp [hnext, hlimit]

/-- A hex literal is a token in any case, so it is exact just up to its limit. -/
theorem exact_hex {x : UInt8} {digits : Bytes} (h : (hex x digits).Before rest)
    (hl : l.rest = (hex x digits).text ++ rest) :
    (hex x digits).Exact rest l ↔ (hex x digits).value ≤ (hex x digits).limit := by
  rcases nextToken_run Blank.nil (solid_text h) hl with ⟨l₁, hnext, hl₁⟩
  rcases lexToken_hex h.1 h.2.1 h.2.2.1 h.2.2.2 hl₁ with ⟨l', htoken, hl'⟩
  rw [htoken] at hnext
  have hnever : ¬ ∃ e l', nextToken l = .error (.thrown e) l' := by simp [hnext]
  constructor
  · intro hexact
    by_contra hvalue
    exact hnever (hexact.throws.mpr (Nat.not_le.mp hvalue))
  · intro hvalue
    constructor
    · exact fun _ => ⟨_, l', hnext, hl', rfl, toInt_hexAccumulate digits⟩
    · exact iff_of_false hnever (Nat.not_lt.mpr hvalue)

/-- The integer literals that are read exactly: the decimal ones, and the hex ones below `2 ^ 64`. -/
theorem exact_iff (h : n.Before rest) (hl : l.rest = n.text ++ rest) :
    n.Exact rest l ↔ (n.isHex = true → n.value ≤ 2 ^ 64 - 1) := by
  cases n with
  | decimal digits => exact iff_of_true (exact_decimal h hl) nofun
  | hex x digits =>
      rw [exact_hex h hl, limit]
      simp only [isHex, true_imp_iff]

theorem exact_iff_largest : (hex (ch 'x') (ascii "ffffffffffffffff")).Exact (ascii ";")
    { rest := ascii "0xffffffffffffffff;" } := by
  have hbefore : (hex (ch 'x') (ascii "ffffffffffffffff")).Before (ascii ";") :=
    ⟨.inl rfl, by decide +kernel, by decide +kernel, by decide +kernel⟩
  exact (exact_iff hbefore rfl).mpr fun _ => by decide +kernel

/-- The literal `0x10000000000000000` is read as zero. -/
theorem not_exact_wide : ∃ (n : IntLiteral) (rest : Bytes) (l : Lexer), n.Before rest ∧
    l.rest = n.text ++ rest ∧ (∃ t l', nextToken l = .ok t l' ∧ t.kind = .kInt ∧ t.intValue = 0) ∧
    ¬ n.Exact rest l := by
  have hbefore : (hex (ch 'x') (ascii "10000000000000000")).Before (ascii ";") :=
    ⟨.inl rfl, by decide +kernel, by decide +kernel, by decide +kernel⟩
  refine ⟨_, _, { rest := ascii "0x10000000000000000;" }, hbefore, rfl, ⟨_, _, rfl, rfl, rfl⟩, ?_⟩
  intro hexact
  have hlimit := (exact_hex hbefore rfl).mp hexact
  exact absurd hlimit (by decide +kernel)

end IntLiteral

end Bytewright.Cfgscript
