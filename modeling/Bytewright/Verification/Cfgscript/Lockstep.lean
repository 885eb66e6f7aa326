import Bytewright.Verification.Cfgscript.Lookahead
import Bytewright.Verification.Cfgscript.Offsets
import Bytewright.Verification.Cfgscript.Prefixes

/-! # Parsing in front of a new line

The parser on a text and on the same text with more behind it, in lockstep up to the end of the text. -/

namespace Bytewright.Cfgscript

open Bytewright.Common Bytewright.Library

/-! ### Two parsers -/

/-- `p'` is where `p` is, with `suf` behind the rest of the text. -/
structure Alike (suf : Bytes) (p p' : Parser Lexer) : Prop where
  cur : p'.cur.erase = p.cur.erase
  rest : Extends suf p.lexer p'.lexer
  inside : suf = [] ∨ p.cur.kind ≠ .kEof

/-- The parser of the shorter text is at the end. -/
def Ended (suf : Bytes) (p : Parser Lexer) : Prop :=
  suf ≠ [] ∧ p.cur.kind = .kEof ∧ p.lexer.rest = []

/-- The lookahead of `p'` was read from the begin of `suf`. -/
def Beyond (suf : Bytes) (p' : Parser Lexer) : Prop :=
  ∃ l : Lexer, l.rest = suf ∧ nextToken l = .ok p'.cur p'.lexer

/-- `n` returns on the longer text what `m` returns, before `m` comes to the end. -/
abbrev Mimics {α γ : Type} (suf : Bytes) (g : α → γ) (m n : Parse Lexer α) : Prop :=
  Follows (Ended suf) (Alike suf) g m n

/-- `m` can come to the end with its last token only; `n` is then in front of what follows. -/
abbrev Completes {α γ : Type} (suf : Bytes) (g : α → γ) (m n : Parse Lexer α) : Prop :=
  Finishes (Ended suf) (Alike suf) (Beyond suf) g m n

theorem Token.kind_of_erase {t t' : Token} (h : t'.erase = t.erase) : t'.kind = t.kind := by
  have hkind : t'.erase.kind = t.erase.kind := by rw [h]
  exact hkind

theorem Token.text_of_erase {t t' : Token} (h : t'.erase = t.erase) : t'.text = t.text := by
  have htext : t'.erase.text = t.erase.text := by rw [h]
  exact htext

section Lockstep

variable {α β γ : Type} {suf : Bytes} {p p' q q' : Parser Lexer} {t t' : Token} {g : α → γ}
  {m n : Parse Lexer α}

theorem Alike.not_ended (h : Alike suf p p') : ¬ Ended suf p := by
  rintro ⟨hne, heof, -⟩
  exact h.inside.elim hne fun hkind => hkind heof

theorem Alike.fuel_le (h : Alike suf p p') : p.fuel ≤ p'.fuel := by
  have hrest : p'.lexer.rest = p.lexer.rest ++ suf := h.rest
  show p.lexer.rest.length + 2 ≤ p'.lexer.rest.length + 2
  rw [hrest, List.length_append]
  omega

/-- Reading the state: only the lookahead and the fuel are used of it. -/
theorem Mimics.get_bind {f f' : Parser Lexer → Parse Lexer α}
    (h : ∀ p p', p'.cur.erase = p.cur.erase → p.fuel ≤ p'.fuel → Mimics suf g (f p) (f' p')) :
    Mimics suf g (get >>= f) (get >>= f') :=
  Follows.get_bind (fun p p' hp => h p p' hp.cur hp.fuel_le) fun p _ => ⟨p, h p p rfl (Nat.le_refl _)⟩

theorem Mimics.raise {code : ErrorCode} {at_ : Nat} {msg : String} :
    Mimics suf g (raise code at_ msg) n :=
  .fails fun _ _ _ h => by cases h

theorem Mimics.raise_bind {code : ErrorCode} {at_ : Nat} {msg : String} {f : β → Parse Lexer α} :
    Mimics suf g (Common.raise code at_ msg >>= f) n :=
  .fails fun _ _ _ h => by cases h

theorem Completes.get_bind {f f' : Parser Lexer → Parse Lexer α}
    (h : ∀ p p', p'.cur.erase = p.cur.erase → p.fuel ≤ p'.fuel → Completes suf g (f p) (f' p')) :
    Completes suf g (get >>= f) (get >>= f') :=
  Finishes.get_bind (fun p p' hp => h p p' hp.cur hp.fuel_le) fun p _ => ⟨p, h p p rfl (Nat.le_refl _)⟩

/-! ### Tokens -/

theorem nextToken_nil {l : Lexer} (hl : l.rest = []) :
    nextToken l = .ok { kind := .kEof, offset := l.pos } l := by
  have hend : l.atEnd = true := by simp [Lexer.atEnd, hl]
  have hround : triviaRound l = .ok false l := by simp [triviaRound, bind_run, hend]
  rw [nextToken_of_stop hround, lexToken_of_atEnd hend]

theorem take_eq_ok (h : take p = .ok t q) : t = p.cur ∧ nextToken p.lexer = .ok q.cur q.lexer := by
  have hcur := cur_of_take h
  rw [take] at h
  split at h
  · next hnext =>
    cases h
    exact ⟨hcur, hnext⟩
  · cases h

variable (hsuf : OnNewLine suf)
include hsuf

/-- Reading the lookahead. -/
theorem nextToken_cases {l l' : Lexer} (hl : Extends suf l l')
    (h : nextToken l = .ok q.cur q.lexer) :
    (∃ t' l₁', nextToken l' = .ok t' l₁' ∧ Alike suf q ⟨l₁', t'⟩) ∨
      (Ended suf q ∧ ∀ q' : Parser Lexer, nextToken l' = .ok q'.cur q'.lexer → Beyond suf q') := by
  rcases nextToken_repeats hsuf hl h with ⟨t', l₁', hnext, ht', hl', hkind⟩ |
    ⟨hcur, hrest, l₂, hl₂, hnext⟩
  · exact .inl ⟨t', l₁', hnext, ht', hl', .inr hkind⟩
  · by_cases hnil : suf = []
    · subst hnil
      rw [nextToken_nil hl₂] at hnext
      refine .inl ⟨_, l₂, hnext, hcur.symm, ?_, .inl rfl⟩
      rw [Extends, hl₂, hrest, List.append_nil]
    · refine .inr ⟨⟨hnil, Token.kind_of_erase (t := {}) hcur, hrest⟩, fun q' hread => ?_⟩
      exact ⟨l₂, hl₂, hnext.symm.trans hread⟩

/-- Taking a token leads both parsers to the next one, unless the shorter text has none. -/
theorem take_cases (hp : Alike suf p p') (h : take p = .ok t q) :
    (∃ t' q', take p' = .ok t' q' ∧ t'.erase = t.erase ∧ Alike suf q q') ∨
      (Ended suf q ∧ ∀ t' q', take p' = .ok t' q' → t'.erase = t.erase ∧ Beyond suf q') := by
  rcases take_eq_ok h with ⟨rfl, hnext⟩
  rcases nextToken_cases hsuf hp.rest hnext with ⟨t', l', hnext', hq⟩ | ⟨hq, hlast⟩
  · exact .inl ⟨p'.cur, ⟨l', t'⟩, take_of_nextToken hnext', hp.cur, hq⟩
  · refine .inr ⟨hq, fun t' q' htake => ?_⟩
    rcases take_eq_ok htake with ⟨rfl, hread⟩
    exact ⟨hp.cur, hlast q' hread⟩

theorem take_mimics : Mimics suf Token.erase take take where
  stays h hs := by
    rcases take_eq_ok h with ⟨-, hnext⟩
    rw [nextToken_nil hs.2.2] at hnext
    injection hnext with hcur hlexer
    exact ⟨hs.1, by rw [← hcur], by rw [← hlexer]; exact hs.2.2⟩
  step h hp := by
    rcases take_cases hsuf hp h with ⟨t', q', htake, ht, hq⟩ | ⟨hq, -⟩
    · exact .inr ⟨t', q', htake, ht, hq⟩
    · exact .inl hq

omit hsuf in
theorem check_mimics (kind : TokenKind) : Mimics suf id (check kind) (check kind) := by
  refine Mimics.get_bind fun p p' hcur _ => .pure ?_
  rw [Token.kind_of_erase hcur]

theorem accept_mimics (kind : TokenKind) : Mimics suf id (accept kind) (accept kind) := by
  refine Mimics.get_bind fun p p' hcur _ => ?_
  rw [Token.kind_of_erase hcur]
  exact .ite Iff.rfl ((take_mimics hsuf).map fun _ _ _ => rfl) (.pure rfl)

theorem expect_completes {kind : TokenKind} (hkind : kind ≠ .kEof) (what : String) :
    Completes suf Token.erase (expect kind what) (expect kind what) where
  stays h hs := by
    rcases expect_eq_ok h with ⟨hcur, -, -⟩
    exact absurd (hcur.symm.trans hs.2.1) hkind
  step h hp := by
    rcases expect_eq_ok h with ⟨hcur, rfl, htake⟩
    have hcur' := (Token.kind_of_erase hp.cur).trans hcur
    rw [expect_of_eq hcur']
    exact (take_mimics hsuf).step htake hp
  never hs h := by
    rcases expect_eq_ok h with ⟨hcur, -, -⟩
    exact absurd (hcur.symm.trans hs.2.1) hkind
  last hp h h' hs := by
    rcases expect_eq_ok h with ⟨hcur, rfl, htake⟩
    rcases expect_eq_ok h' with ⟨-, rfl, htake'⟩
    rcases take_cases hsuf hp htake with ⟨t', q'', -, -, hq⟩ | ⟨-, hlast⟩
    · exact absurd hs hq.not_ended
    · exact hlast _ _ htake'

theorem expect_mimics {kind : TokenKind} (hkind : kind ≠ .kEof) (what : String) :
    Mimics suf Token.erase (expect kind what) (expect kind what) :=
  (expect_completes hsuf hkind what).toFollows

/-! ### Primaries -/

section Expressions

variable {expr : Parse Lexer Expr} {below : Deeper Lexer} {fuel fuel' : Nat}

/-- The productions one level deeper go in lockstep. -/
structure Deeper.Mimics (suf : Bytes) (below : Deeper Lexer) : Prop where
  expr : Cfgscript.Mimics suf Expr.erase below.expr below.expr
  unary : Cfgscript.Mimics suf Expr.erase below.unary below.unary
  binary : ∀ minPrec, Cfgscript.Mimics suf Expr.erase (below.binary minPrec) (below.binary minPrec)

theorem parseElements_mimics (hexpr : Mimics suf Expr.erase expr expr) (hfuel : fuel ≤ fuel') :
    Mimics suf eraseElements (parseElements expr fuel) (parseElements expr fuel') := by
  induction fuel generalizing fuel' with
  | zero => exact .fails fun _ _ _ h => by cases h
  | succ fuel ih =>
      obtain ⟨fuel', rfl⟩ := Nat.exists_eq_add_one_of_ne_zero (Nat.ne_zero_of_lt hfuel)
      refine hexpr.bind fun e e' he => ?_
      have hlast : eraseElements [e'] = eraseElements [e] := by simp [eraseElements, he]
      refine (accept_mimics hsuf .kComma).bind fun comma comma' hcomma => ?_
      cases hcomma
      refine .ite Iff.rfl ((check_mimics .kRBracket).bind fun close close' hclose => ?_) (.pure hlast)
      cases hclose
      refine .ite Iff.rfl (.pure hlast) ((ih (Nat.le_of_succ_le_succ hfuel)).map fun es es' hes => ?_)
      simp [eraseElements, he, hes]

theorem parseElementList_mimics (hexpr : Mimics suf Expr.erase expr expr) :
    Mimics suf eraseElements (parseElementList expr) (parseElementList expr) := by
  refine (check_mimics .kRBracket).bind fun close close' hclose => ?_
  cases hclose
  refine .ite Iff.rfl (.pure rfl) (Mimics.get_bind fun p p' _ hfuel => ?_)
  exact parseElements_mimics hsuf hexpr hfuel

theorem parseFields_mimics (hexpr : Mimics suf Expr.erase expr expr) (offset offset' : Nat)
    (hfuel : fuel ≤ fuel') :
    Mimics suf eraseFields (parseFields expr offset fuel) (parseFields expr offset' fuel') := by
  induction fuel generalizing fuel' with
  | zero => exact .fails fun _ _ _ h => by cases h
  | succ fuel ih =>
      obtain ⟨fuel', rfl⟩ := Nat.exists_eq_add_one_of_ne_zero (Nat.ne_zero_of_lt hfuel)
      have ih := ih (Nat.le_of_succ_le_succ hfuel)
      refine (check_mimics .kRBrace).bind fun close close' hclose => ?_
      cases hclose
      refine .ite Iff.rfl (.pure rfl) ((check_mimics .kEof).bind fun eof eof' heof => ?_)
      cases heof
      refine .ite Iff.rfl Mimics.raise_bind ((accept_mimics hsuf .kSemicolon).bind fun semi semi' hsemi => ?_)
      cases hsemi
      refine .ite Iff.rfl ih ?_
      refine (expect_mimics hsuf (by decide) _).bind fun key key' hkey => ?_
      refine (expect_mimics hsuf (by decide) _).bind fun _ _ _ => hexpr.bind fun e e' he => ?_
      refine (expect_mimics hsuf (by decide) _).bind fun _ _ _ => ih.map fun fs fs' hfs => ?_
      simp [eraseFields, Token.text_of_erase hkey, he, hfs]

theorem parseArray_mimics (hbelow : below.Mimics suf) (offset offset' : Nat) :
    Mimics suf Expr.erase (parseArray below offset) (parseArray below offset') := by
  refine (expect_mimics hsuf (by decide) _).bind fun _ _ _ => ?_
  refine (parseElementList_mimics hsuf hbelow.expr).bind fun es es' hes => ?_
  exact (expect_mimics hsuf (by decide) _).map fun _ _ _ => by simp [Expr.erase, hes]

theorem parseObject_mimics (hbelow : below.Mimics suf) (offset offset' : Nat) :
    Mimics suf Expr.erase (parseObject below offset) (parseObject below offset') := by
  refine (expect_mimics hsuf (by decide) _).bind fun _ _ _ => Mimics.get_bind fun p p' _ hfuel => ?_
  refine (parseFields_mimics hsuf hbelow.expr offset offset' hfuel).bind fun fs fs' hfs => ?_
  exact (expect_mimics hsuf (by decide) _).map fun _ _ _ => by simp [Expr.erase, hfs]

omit hsuf in
theorem leaf?_erase (h : t'.erase = t.erase) : (leaf? t').map Expr.erase = (leaf? t).map Expr.erase := by
  rcases t with ⟨kind, offset, text, intValue, floatValue⟩
  rcases t' with ⟨kind', offset', text', intValue', floatValue'⟩
  injection h with hkind _ htext hint hfloat
  subst hkind htext hint hfloat
  cases kind' <;> rfl

theorem parsePrimary_mimics (hbelow : below.Mimics suf) :
    Mimics suf Expr.erase (parsePrimary below) (parsePrimary below) := by
  refine Mimics.get_bind fun p p' hcur _ => ?_
  have hleaf := leaf?_erase hcur
  dsimp only
  rw [Token.kind_of_erase hcur]
  cases hp : leaf? p.cur with
  | some node =>
      cases hp' : leaf? p'.cur with
      | some node' => exact (take_mimics hsuf).map fun _ _ _ => by simpa [hp, hp'] using hleaf
      | none => simp [hp, hp'] at hleaf
  | none =>
      cases hp' : leaf? p'.cur with
      | some node' => simp [hp, hp'] at hleaf
      | none =>
          refine .ite Iff.rfl ((take_mimics hsuf).bind fun _ _ _ => ?_) (.ite Iff.rfl ?_ (.ite Iff.rfl ?_ ?_))
          · refine hbelow.expr.bind fun inner inner' hinner => ?_
            exact (expect_mimics hsuf (by decide) _).map fun _ _ _ => hinner
          · exact parseArray_mimics hsuf hbelow _ _
          · exact parseObject_mimics hsuf hbelow _ _
          · exact Mimics.raise

/-! ### Operators -/

theorem parseUnary_mimics (hbelow : below.Mimics suf) :
    Mimics suf Expr.erase (parseUnary below) (parseUnary below) := by
  refine Mimics.get_bind fun p p' hcur _ => ?_
  rw [Token.kind_of_erase hcur]
  refine .ite Iff.rfl ((take_mimics hsuf).bind fun op op' hop => ?_) (parsePrimary_mimics hsuf hbelow)
  refine hbelow.unary.map fun e e' he => ?_
  simp [Expr.erase, Token.kind_of_erase hop, he]

theorem binaryLoop_mimics (hbelow : below.Mimics suf) (minPrec : Int) {lhs lhs' : Expr}
    (hlhs : lhs'.erase = lhs.erase) (hfuel : fuel ≤ fuel') :
    Mimics suf Expr.erase (binaryLoop below minPrec fuel lhs) (binaryLoop below minPrec fuel' lhs') := by
  induction fuel generalizing fuel' lhs lhs' with
  | zero => exact .fails fun _ _ _ h => by cases h
  | succ fuel ih =>
      obtain ⟨fuel', rfl⟩ := Nat.exists_eq_add_one_of_ne_zero (Nat.ne_zero_of_lt hfuel)
      refine Mimics.get_bind fun p p' hcur _ => ?_
      dsimp only
      rw [Token.kind_of_erase hcur]
      refine .ite Iff.rfl (.pure hlhs) ((take_mimics hsuf).bind fun op op' hop => ?_)
      refine (hbelow.binary _).bind fun rhs rhs' hrhs => ih ?_ (Nat.le_of_succ_le_succ hfuel)
      simp [Expr.erase, Token.kind_of_erase hop, hlhs, hrhs]

theorem parseBinary_mimics (hbelow : below.Mimics suf) (minPrec : Int) :
    Mimics suf Expr.erase (parseBinary below minPrec) (parseBinary below minPrec) := by
  refine hbelow.unary.bind fun lhs lhs' hlhs => Mimics.get_bind fun p p' _ hfuel => ?_
  exact binaryLoop_mimics hsuf hbelow minPrec hlhs hfuel

theorem parseTernary_mimics (hbelow : below.Mimics suf) :
    Mimics suf Expr.erase (parseTernary below) (parseTernary below) := by
  refine (parseBinary_mimics hsuf hbelow 1).bind fun cond cond' hcond => ?_
  refine (check_mimics .kQuestion).bind fun more more' hmore => ?_
  cases hmore
  refine .ite Iff.rfl ((take_mimics hsuf).bind fun _ _ _ => ?_) (.pure hcond)
  refine hbelow.expr.bind fun then_ then' hthen => ?_
  refine (expect_mimics hsuf (by decide) _).bind fun _ _ _ => hbelow.expr.map fun else_ else' helse => ?_
  simp [Expr.erase, hcond, hthen, helse]

theorem productions_mimics (room : Nat) : (productions room).Mimics suf := by
  induction room with
  | zero =>
      exact {
        expr := .fails fun _ _ _ => tooDeep_ne_ok
        unary := .fails fun _ _ _ => tooDeep_ne_ok
        binary := fun _ => .fails fun _ _ _ => tooDeep_ne_ok }
  | succ room ih =>
      exact {
        expr := parseTernary_mimics hsuf ih
        unary := parseUnary_mimics hsuf ih
        binary := parseBinary_mimics hsuf ih }

end Expressions

/-! ### Statements -/

theorem parsePath_mimics {fuel fuel' : Nat} (hfuel : fuel ≤ fuel') :
    Mimics suf id (parsePath fuel) (parsePath fuel') := by
  induction fuel generalizing fuel' with
  | zero => exact .fails fun _ _ _ h => by cases h
  | succ fuel ih =>
      obtain ⟨fuel', rfl⟩ := Nat.exists_eq_add_one_of_ne_zero (Nat.ne_zero_of_lt hfuel)
      refine (accept_mimics hsuf .kDot).bind fun dot dot' hdot => ?_
      cases hdot
      refine .ite Iff.rfl ((expect_mimics hsuf (by decide) _).bind fun part part' hpart => ?_) (.pure rfl)
      refine (ih (Nat.le_of_succ_le_succ hfuel)).map fun path path' hpath => ?_
      cases hpath
      simp [Token.text_of_erase hpart]

theorem parseAssignment_completes (path : List Bytes) (offset offset' : Nat) :
    Completes suf ParsedStatement.erase (parseAssignment path offset) (parseAssignment path offset') := by
  refine .after (expect_mimics hsuf (by decide) _) fun _ _ _ => ?_
  refine .after (productions_mimics hsuf _).expr fun e e' he => ?_
  exact (expect_completes hsuf (by decide) _).map fun _ _ _ => by simp [ParsedStatement.erase, he]

section Blocks

variable {nested : Parse Lexer ParsedStatement}

theorem parseChildren_mimics (hnested : Mimics suf ParsedStatement.erase nested nested)
    (offset offset' : Nat) {fuel fuel' : Nat} (hfuel : fuel ≤ fuel') :
    Mimics suf eraseStatements (parseChildren nested offset fuel)
      (parseChildren nested offset' fuel') := by
  induction fuel generalizing fuel' with
  | zero => exact .fails fun _ _ _ h => by cases h
  | succ fuel ih =>
      obtain ⟨fuel', rfl⟩ := Nat.exists_eq_add_one_of_ne_zero (Nat.ne_zero_of_lt hfuel)
      have ih := ih (Nat.le_of_succ_le_succ hfuel)
      refine (check_mimics .kRBrace).bind fun close close' hclose => ?_
      cases hclose
      refine .ite Iff.rfl (.pure rfl) ((check_mimics .kEof).bind fun eof eof' heof => ?_)
      cases heof
      refine .ite Iff.rfl Mimics.raise_bind ((accept_mimics hsuf .kSemicolon).bind fun semi semi' hsemi => ?_)
      cases hsemi
      refine .ite Iff.rfl ih (hnested.bind fun st st' hst => ih.map fun stmts stmts' hstmts => ?_)
      simp [eraseStatements, hst, hstmts]

theorem parseBlock_completes (hnested : Mimics suf ParsedStatement.erase nested nested)
    (offset offset' : Nat) :
    Completes suf eraseStatements (parseBlock nested offset) (parseBlock nested offset') := by
  refine .after (expect_mimics hsuf (by decide) _) fun _ _ _ => ?_
  refine Completes.get_bind fun p p' _ hfuel => ?_
  refine .after (parseChildren_mimics hsuf hnested offset offset' hfuel) fun stmts stmts' hstmts => ?_
  exact (expect_completes hsuf (by decide) _).map fun _ _ _ => hstmts

theorem parseStatementWith_completes (hnested : Mimics suf ParsedStatement.erase nested nested) :
    Completes suf ParsedStatement.erase (parseStatementWith nested) (parseStatementWith nested) := by
  refine Completes.get_bind fun p p' _ _ => ?_
  refine .after (check_mimics .kInclude) fun b b' hb => ?_
  cases hb
  refine .ite Iff.rfl ?_ ?_
  · refine .after (take_mimics hsuf) fun _ _ _ => ?_
    refine .after (expect_mimics hsuf (by decide) _) fun path path' hpath => ?_
    refine (expect_completes hsuf (by decide) _).map fun _ _ _ => ?_
    simp [ParsedStatement.erase, Token.text_of_erase hpath]
  · refine .after (expect_mimics hsuf (by decide) _) fun first first' hfirst => ?_
    have hname := Token.text_of_erase hfirst
    refine .after (check_mimics .kString) fun b b' hb => ?_
    cases hb
    refine .ite Iff.rfl ?_ ?_
    · refine .after (take_mimics hsuf) fun label label' hlabel => ?_
      have hlabel := Token.text_of_erase hlabel
      refine Completes.get_bind fun q q' hcur _ => ?_
      dsimp only
      rw [Token.kind_of_erase hcur]
      refine .ite Iff.rfl (.fails fun _ _ _ h => by cases h) ?_
      refine (parseBlock_completes hsuf hnested _ _).map fun stmts stmts' hstmts => ?_
      simp [ParsedStatement.erase, hname, hlabel, hstmts]
    · refine .after (check_mimics .kLBrace) fun b b' hb => ?_
      cases hb
      refine .ite Iff.rfl ?_ ?_
      · refine (parseBlock_completes hsuf hnested _ _).map fun stmts stmts' hstmts => ?_
        simp [ParsedStatement.erase, hname, hstmts]
      · refine Completes.get_bind fun q q' _ hfuel => ?_
        refine .after (parsePath_mimics hsuf hfuel) fun path path' hpath => ?_
        cases hpath
        rw [hname]
        exact parseAssignment_completes hsuf _ _ _

end Blocks

theorem parseStatementIn_completes (room : Nat) :
    Completes suf ParsedStatement.erase (parseStatementIn room) (parseStatementIn room) := by
  induction room with
  | zero => exact .fails fun _ _ _ => tooDeep_ne_ok
  | succ room ih => exact parseStatementWith_completes hsuf ih.toFollows

theorem parseStatements_mimics {fuel fuel' : Nat} (hfuel : fuel ≤ fuel') :
    Mimics suf eraseStatements (parseStatements fuel) (parseStatements fuel') := by
  induction fuel generalizing fuel' with
  | zero => exact .fails fun _ _ _ h => by cases h
  | succ fuel ih =>
      obtain ⟨fuel', rfl⟩ := Nat.exists_eq_add_one_of_ne_zero (Nat.ne_zero_of_lt hfuel)
      have ih := ih (Nat.le_of_succ_le_succ hfuel)
      refine (check_mimics .kEof).bind fun eof eof' heof => ?_
      cases heof
      refine .ite Iff.rfl (.pure rfl) ((accept_mimics hsuf .kSemicolon).bind fun semi semi' hsemi => ?_)
      cases hsemi
      refine .ite Iff.rfl ih ?_
      refine (parseStatementIn_completes hsuf _).toFollows.bind fun st st' hst => ih.map ?_
      intro stmts stmts' hstmts
      simp [eraseStatements, hst, hstmts]

end Lockstep

end Bytewright.Cfgscript
