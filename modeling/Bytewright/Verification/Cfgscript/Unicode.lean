import Bytewright.Verification.Cfgscript.Reformatting
import Bytewright.Verification.Common.Codec
import Bytewright.Verification.Common.Utf8

/-! # Unicode escapes

The encoder of the scanner against the one of `common/utf8.cpp`. -/

namespace Bytewright.Cfgscript

open Bytewright.Common Bytewright.Library

/-! ### Two encoders -/

/-- The scanner's encoder makes what the library's makes. -/
theorem utf8Bytes_valid {cp : UInt32} (h : cp.isValidChar) (esc : Nat) (l : Lexer) :
    utf8Bytes cp esc l = .ok (Utf8.encode cp []).2 l := by
  rcases (Utf8.isValidChar_iff cp).mp h with ⟨hsurrogate, hrange⟩
  have hvalid : ¬ (cp > 0x10FFFF ∨ (cp ≥ 0xD800 ∧ cp ≤ 0xDFFF)) := by
    rintro (h | h)
    · exact UInt32.not_lt.mpr hrange h
    · exact hsurrogate h
  have hle (n m : UInt32) (hnm : m.toNat = n.toNat + 1) : cp ≤ n ↔ cp < m := by
    rw [UInt32.le_iff_toNat_le, UInt32.lt_iff_toNat_lt, hnm]
    exact Nat.lt_succ_iff.symm
  rw [Utf8.encode_valid h, List.nil_append, utf8Bytes, if_neg hvalid]
  simp only [hle 0x7F 0x80 rfl, hle 0x7FF 0x800 rfl, hle 0xFFFF 0x10000 rfl, Utf8.sequence]
  split_ifs <;> rfl

/-- It throws where the library's fails. -/
theorem utf8Bytes_invalid {cp : UInt32} (h : ¬ cp.isValidChar) (esc : Nat) (l : Lexer) :
    ∃ msg, utf8Bytes cp esc l = .error (.thrown ⟨.kBadType, esc, msg⟩) l := by
  have hout : cp > 0x10FFFF ∨ (cp ≥ 0xD800 ∧ cp ≤ 0xDFFF) := by
    rw [Utf8.isValidChar_iff, not_and_or, not_not] at h
    exact h.symm.imp_left UInt32.not_le.mp
  rw [utf8Bytes, if_pos hout]
  exact ⟨_, rfl⟩

/-! ### One escape -/

/-- `\u{ds}` -/
def unicodeEscape (ds : Bytes) : Bytes := ch '\\' :: ch 'u' :: ch '{' :: (ds ++ [ch '}'])

/-- One to six hex digits. -/
structure HexDigits (ds : Bytes) : Prop where
  nonempty : ds ≠ []
  atMost : ds.length ≤ 6
  hex : ∀ d ∈ ds, isHexDigit d = true

/-- The code point that hex digits spell. -/
def codePoint (ds : Bytes) : UInt32 := UInt32.ofNat (numeralValue 16 hexValue ds)

section Escape

variable {ds rest : Bytes} {l : Lexer}

theorem brace_class : isHexDigit (ch '}') = false := by decide

theorem unicodeLoop_run (esc : Nat) {left : Nat} (v : Nat) {count : Nat} (hds : ∀ d ∈ ds, isHexDigit d = true)
    (hcount : count + ds.length ≤ 6) (hleft : ds.length < left) (hl : l.rest = ds ++ ch '}' :: rest) :
    ∃ l', unicodeLoop esc left (UInt32.ofNat v) count l =
        .ok (UInt32.ofNat (ds.foldl (fun v d => 16 * v + hexValue d) v), count + ds.length) l' ∧
      l'.rest = ch '}' :: rest := by
  induction ds generalizing left v count l with
  | nil =>
      obtain ⟨left, rfl⟩ := Nat.exists_eq_add_one_of_ne_zero (Nat.ne_zero_of_lt hleft)
      refine ⟨l, ?_, hl⟩
      simp [unicodeLoop, bind_run, Lexer.peek_cons (show l.rest = ch '}' :: rest from hl), brace_class]
  | cons d ds ih =>
      obtain ⟨left, rfl⟩ := Nat.exists_eq_add_one_of_ne_zero (Nat.ne_zero_of_lt hleft)
      rw [List.length_cons] at hcount hleft
      rw [List.cons_append] at hl
      have hd := hds d List.mem_cons_self
      have hvalue : UInt32.ofNat v * 16 + UInt32.ofNat (hexValue d) = UInt32.ofNat (16 * v + hexValue d) := by
        rw [UInt32.ofNat_add, UInt32.ofNat_mul, UInt32.mul_comm]
        rfl
      have hmany : count + 1 + ds.length ≤ 6 := by omega
      have hfuel : ds.length < left := by omega
      rcases ih (16 * v + hexValue d) (fun d hd => hds d (List.mem_cons_of_mem _ hd)) hmany hfuel
        (Lexer.rest_forward l d _) with ⟨l', hloop, hl'⟩
      have hfew : ¬ count + 1 > 6 := by omega
      refine ⟨l', ?_, hl'⟩
      rw [unicodeLoop, bind_of_ok (get_run l)]
      simp only [Lexer.atEnd_cons hl, Lexer.peek_cons hl, hd, Bool.not_false, Bool.and_self, if_true]
      rw [bind_of_ok (advance_run hl), if_neg hfew, hvalue, hloop, Nat.add_right_comm, Nat.add_assoc,
        List.length_cons]
      rfl

/-- The digits between braces go to the encoder as the code point they spell. -/
theorem lexUnicodeEscape_run (esc : Nat) (h : HexDigits ds)
    (hl : l.rest = ch '{' :: (ds ++ ch '}' :: rest)) :
    ∃ l', lexUnicodeEscape esc l = utf8Bytes (codePoint ds) esc l' ∧ l'.rest = rest := by
  have hfew := h.atMost
  have hcount : ds.length ≠ 0 := fun hzero => h.nonempty (List.length_eq_zero_iff.mp hzero)
  rcases advance_cons hl with ⟨l₁, hopen, hl₁⟩
  have hcap : 0 + ds.length ≤ 6 := by omega
  have hfuel : ds.length < 7 := by omega
  rcases unicodeLoop_run esc 0 h.hex hcap hfuel hl₁ with ⟨l₂, hloop, hl₂⟩
  rcases advance_cons hl₂ with ⟨l₃, hclose, hl₃⟩
  have hloop : unicodeLoop esc 7 0 0 l₁ = .ok (codePoint ds, ds.length) l₂ := by
    rw [← Nat.zero_add ds.length]
    exact hloop
  refine ⟨l₃, ?_, hl₃⟩
  simp [lexUnicodeEscape, bind_run, Lexer.peek_cons hl, hopen, hloop, hcount, Lexer.atEnd_cons hl₂,
    Lexer.peek_cons hl₂, hclose]

theorem lexEscape_unicode (h : HexDigits ds) (hl : l.rest = unicodeEscape ds ++ rest) :
    ∃ l', lexEscape l = utf8Bytes (codePoint ds) l.pos l' ∧ l'.rest = rest := by
  have hl : l.rest = ch '\\' :: ch 'u' :: ch '{' :: (ds ++ ch '}' :: rest) := by
    rw [hl, unicodeEscape]
    simp
  have hsimple : simpleEscape? (ch 'u') = none ∧ ch 'u' ≠ ch 'x' := by decide
  rcases advance_cons hl with ⟨l₁, hback, hl₁⟩
  rcases advance_cons hl₁ with ⟨l₂, hu, hl₂⟩
  rcases lexUnicodeEscape_run l.pos h hl₂ with ⟨l', hescape, hl'⟩
  refine ⟨l', ?_, hl'⟩
  simp [lexEscape, bind_run, hback, Lexer.atEnd_cons hl₁, hu, hsimple, hescape]

end Escape

/-! ### Literals of escapes -/

/-- A string literal that spells code points by their hex digits. -/
def unicodeLiteral (escapes : List Bytes) : Bytes :=
  ch '\"' :: (escapes.flatMap unicodeEscape ++ [ch '\"'])

section Literal

variable {escapes : List Bytes} {rest : Bytes} {l : Lexer} (opening : Nat) {fuel : Nat}

theorem flatMap_unicodeEscape_cons (ds : Bytes) (escapes : List Bytes) (text : Bytes) :
    (ds :: escapes).flatMap unicodeEscape ++ text =
      unicodeEscape ds ++ (escapes.flatMap unicodeEscape ++ text) := by
  rw [List.flatMap_cons, List.append_assoc]

/-- The loop over escapes of scalar values appends their encodings. -/
theorem lexStringLoop_valid (hescapes : ∀ ds ∈ escapes, HexDigits ds)
    (hvalid : ∀ ds ∈ escapes, (codePoint ds).isValidChar) (hfuel : escapes.length < fuel)
    (hl : l.rest = escapes.flatMap unicodeEscape ++ ch '\"' :: rest) :
    ∃ l', lexStringLoop opening fuel l =
        .ok (escapes.flatMap fun ds => (Utf8.encode (codePoint ds) []).2) l' ∧ l'.rest = rest := by
  induction escapes generalizing fuel l with
  | nil =>
      obtain ⟨fuel, rfl⟩ := Nat.exists_eq_add_one_of_ne_zero (Nat.ne_zero_of_lt hfuel)
      exact ⟨_, lexStringLoop_quote opening fuel hl, Lexer.rest_forward ..⟩
  | cons ds escapes ih =>
      obtain ⟨fuel, rfl⟩ := Nat.exists_eq_add_one_of_ne_zero (Nat.ne_zero_of_lt hfuel)
      rw [flatMap_unicodeEscape_cons] at hl
      rcases lexEscape_unicode (hescapes ds List.mem_cons_self) hl with ⟨l₁, hescape, hl₁⟩
      rw [utf8Bytes_valid (hvalid ds List.mem_cons_self)] at hescape
      rcases ih (fun ds hds => hescapes ds (List.mem_cons_of_mem _ hds))
        (fun ds hds => hvalid ds (List.mem_cons_of_mem _ hds)) (by simpa using hfuel) hl₁ with
        ⟨l', hloop, hl'⟩
      refine ⟨l', ?_, hl'⟩
      rw [lexStringLoop_escape opening fuel hl, bind_of_ok hescape, bind_of_ok hloop]
      rfl

/-- The first escape of anything else throws. -/
theorem lexStringLoop_invalid (hescapes : ∀ ds ∈ escapes, HexDigits ds)
    (hinvalid : ∃ ds ∈ escapes, ¬ (codePoint ds).isValidChar) (hfuel : escapes.length < fuel)
    (hl : l.rest = escapes.flatMap unicodeEscape ++ ch '\"' :: rest) :
    ∃ at_ msg l', lexStringLoop opening fuel l = .error (.thrown ⟨.kBadType, at_, msg⟩) l' := by
  induction escapes generalizing fuel l with
  | nil =>
      rcases hinvalid with ⟨ds, hds, -⟩
      cases hds
  | cons ds escapes ih =>
      obtain ⟨fuel, rfl⟩ := Nat.exists_eq_add_one_of_ne_zero (Nat.ne_zero_of_lt hfuel)
      rw [flatMap_unicodeEscape_cons] at hl
      rcases lexEscape_unicode (hescapes ds List.mem_cons_self) hl with ⟨l₁, hescape, hl₁⟩
      rw [lexStringLoop_escape opening fuel hl]
      by_cases hds : (codePoint ds).isValidChar
      · rw [utf8Bytes_valid hds] at hescape
        have hrest : ∃ ds ∈ escapes, ¬ (codePoint ds).isValidChar := by
          rcases hinvalid with ⟨ds', hds', hbad⟩
          rcases List.mem_cons.mp hds' with rfl | hds'
          · exact absurd hds hbad
          · exact ⟨ds', hds', hbad⟩
        rcases ih (fun ds hds => hescapes ds (List.mem_cons_of_mem _ hds)) hrest
          (by simpa using hfuel) hl₁ with ⟨at_, msg, l', hloop⟩
        exact ⟨at_, msg, l', by rw [bind_of_ok hescape, bind_of_error hloop]⟩
      · rcases utf8Bytes_invalid hds l.pos l₁ with ⟨msg, hthrow⟩
        exact ⟨l.pos, msg, l₁, bind_of_error (hescape.trans hthrow)⟩

end Literal

/-! ### Agreement -/

/-- A code point, spelled with one to six hex digits. -/
structure UnicodeEscape where
  cp : UInt32
  digits : Bytes
  hex : HexDigits digits
  value : numeralValue 16 hexValue digits = cp.toNat

theorem UnicodeEscape.codePoint_digits (e : UnicodeEscape) : codePoint e.digits = e.cp := by
  rw [codePoint, e.value]
  exact UInt32.ofNat_toNat

theorem hexDigits_of_mem {escapes : List UnicodeEscape} :
    ∀ ds ∈ escapes.map UnicodeEscape.digits, HexDigits ds := by
  intro ds hds
  rcases List.mem_map.mp hds with ⟨e, -, rfl⟩
  exact e.hex

theorem quiet_unicodeLiteral (escapes : List Bytes) (rest : Bytes) :
    Quiet (unicodeLiteral escapes ++ rest) := by
  have hquote : solid (ch '\"') = true := by decide
  exact quiet_of_solid (by simpa [unicodeLiteral] using hquote)

theorem UnicodeEscape.texts (escapes : List UnicodeEscape) :
    (escapes.map digits).flatMap (fun ds => (Utf8.encode (codePoint ds) []).2) =
      (escapes.map cp).flatMap fun cp => (Utf8.encode cp []).2 := by
  rw [List.flatMap_map, List.flatMap_map]
  simp only [codePoint_digits]

theorem UnicodeEscape.valid_digits {escapes : List UnicodeEscape}
    (h : ∀ e ∈ escapes, e.cp.isValidChar) :
    ∀ ds ∈ escapes.map digits, (codePoint ds).isValidChar := by
  intro ds hds
  rcases List.mem_map.mp hds with ⟨e, he, rfl⟩
  rw [codePoint_digits]
  exact h e he

/-- A string literal of escapes is scanned by the loop behind its quote. -/
theorem nextToken_unicodeLiteral {escapes : List Bytes} {rest : Bytes} {l : Lexer}
    (hl : l.rest = unicodeLiteral escapes ++ rest) : ∃ (l₁ : Lexer) (fuel : Nat),
      l₁.rest = escapes.flatMap unicodeEscape ++ ch '\"' :: rest ∧ escapes.length < fuel ∧
      nextToken l = (lexStringLoop l.pos fuel >>= fun s =>
        pure { kind := .kString, offset := l.pos, text := s }) l₁ := by
  have hbody : l.rest = ch '\"' :: (escapes.flatMap unicodeEscape ++ ch '\"' :: rest) := by
    rw [hl, unicodeLiteral]
    simp
  refine ⟨_, (escapes.flatMap unicodeEscape ++ ch '\"' :: rest).length + 1,
    Lexer.rest_forward l (ch '\"') _, ?_, ?_⟩
  · have hlen : escapes.length ≤ (escapes.flatMap unicodeEscape).length :=
      length_le_flatMap fun ds _ => by simp [unicodeEscape]
    rw [List.length_append]
    omega
  · rw [nextToken_of_stop (triviaRound_stop (quiet_unicodeLiteral escapes rest) hl),
      lexToken_quote hbody]

section Token

variable {escapes : List UnicodeEscape} {rest : Bytes} {l : Lexer}
  (hl : l.rest = unicodeLiteral (escapes.map UnicodeEscape.digits) ++ rest)

include hl

/-- Scalar values are put together to the text of one token. -/
theorem nextToken_scalars (h : ∀ e ∈ escapes, e.cp.isValidChar) :
    ∃ l', nextToken l =
      .ok { kind := .kString, offset := l.pos,
            text := (escapes.map UnicodeEscape.cp).flatMap fun cp => (Utf8.encode cp []).2 } l' ∧
      l'.rest = rest := by
  rcases nextToken_unicodeLiteral hl with ⟨l₁, fuel, hl₁, hfuel, hnext⟩
  rcases lexStringLoop_valid l.pos hexDigits_of_mem (UnicodeEscape.valid_digits h) hfuel hl₁ with
    ⟨l', hloop, hl'⟩
  rw [UnicodeEscape.texts] at hloop
  exact ⟨l', hnext.trans (bind_of_ok hloop), hl'⟩

/-- One other value spoils the literal. -/
theorem nextToken_nonScalar (h : ∃ e ∈ escapes, ¬ e.cp.isValidChar) :
    ∃ e l', nextToken l = .error (.thrown e) l' := by
  rcases h with ⟨e, he, hbad⟩
  have hbad : ∃ ds ∈ escapes.map UnicodeEscape.digits, ¬ (codePoint ds).isValidChar :=
    ⟨e.digits, List.mem_map_of_mem he, by rwa [e.codePoint_digits]⟩
  rcases nextToken_unicodeLiteral hl with ⟨l₁, fuel, hl₁, hfuel, hnext⟩
  rcases lexStringLoop_invalid l.pos hexDigits_of_mem hbad hfuel hl₁ with ⟨at_, msg, l', hloop⟩
  exact ⟨_, l', hnext.trans (bind_of_error hloop)⟩

end Token

/-- In a literal that spells code points by hex digits the scanner and `common/utf8.cpp` agree. Where
all are scalar values, the text of the token is the concatenation of their encodings, which is valid
and decodes to them. The literal is rejected if and only if `encode` fails for one of them. -/
theorem nextToken_unicode (escapes : List UnicodeEscape) (rest : Bytes) (pos line column : Nat) :
    (∀ cs : List Char, escapes.map UnicodeEscape.cp = cs.map Char.val →
      (∃ l', nextToken
          { rest := unicodeLiteral (escapes.map UnicodeEscape.digits) ++ rest, pos, line, column } =
            .ok { kind := .kString, offset := pos, text := Utf8.encodeAll cs } l' ∧ l'.rest = rest) ∧
      Utf8.validate (Utf8.encodeAll cs) = .ok true ∧
      Utf8.toCodepoints (Utf8.encodeAll cs) [] = .ok (true, cs.map Char.val)) ∧
    ((∃ e l', nextToken
        { rest := unicodeLiteral (escapes.map UnicodeEscape.digits) ++ rest, pos, line, column } =
          .error (.thrown e) l') ↔
      ∃ e ∈ escapes, (Utf8.encode e.cp []).1 = false) := by
  have hscalars := nextToken_scalars
    (rfl : Lexer.rest ⟨unicodeLiteral (escapes.map UnicodeEscape.digits) ++ rest, pos, line, column⟩ = _)
  refine ⟨fun cs hcs => ⟨?_, Utf8.validate_encodeAll cs, Utf8.toCodepoints_encodeAll cs []⟩, ?_, ?_⟩
  · have hvalid : ∀ e ∈ escapes, e.cp.isValidChar := by
      intro e he
      have hmem : e.cp ∈ cs.map Char.val := hcs ▸ List.mem_map_of_mem he
      rcases List.mem_map.mp hmem with ⟨c, -, hc⟩
      exact hc ▸ c.valid
    have htoken := hscalars hvalid
    rw [hcs, List.flatMap_map] at htoken
    exact htoken
  · rintro ⟨e, l', hthrow⟩
    by_contra hall
    have hvalid : ∀ e ∈ escapes, e.cp.isValidChar := by
      intro e he
      by_contra hbad
      exact hall ⟨e, he, (Utf8.encode_fails_iff e.cp []).mpr hbad⟩
    rcases hscalars hvalid with ⟨l'', hok, -⟩
    rw [hthrow] at hok
    cases hok
  · rintro ⟨e, he, hfails⟩
    exact nextToken_nonScalar rfl ⟨e, he, (Utf8.encode_fails_iff e.cp []).mp hfails⟩

/-- A sign outside the basic plane, with a leading zero. -/
theorem nextToken_unicode_sign :
    ∃ l', nextToken { rest := unicodeLiteral [ascii "01F600"] ++ ascii ";" } =
      .ok { kind := .kString, text := Utf8.encodeAll [Char.ofNat 0x1F600] } l' ∧ l'.rest = ascii ";" :=
  ((nextToken_unicode [⟨0x1F600, ascii "01F600", ⟨by decide +kernel, by decide +kernel, by decide +kernel⟩,
    by decide +kernel⟩] (ascii ";") 0 1 1).1 [Char.ofNat 0x1F600] (by decide +kernel)).1

end Bytewright.Cfgscript
