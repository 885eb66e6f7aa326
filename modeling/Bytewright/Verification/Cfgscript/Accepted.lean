import Bytewright.Verification.Cfgscript.Scanning
import Bytewright.Verification.Cfgscript.Soundness

/-! # What the parser lets through

Every identifier of an accepted source is a name, blocks are nested within the depth limit, and each
expression comes from a run of the expression parser. -/

namespace Bytewright.Cfgscript

open Bytewright.Common

/-! ### Names -/

/-- An identifier token carries a name. -/
def Token.Named (t : Token) : Prop := t.kind = .kIdent → IsName t.text

/-- Whatever a scan returns satisfies `post`. -/
def Returns {α : Type} (m : Scan α) (post : α → Prop) : Prop :=
  ∀ l a l', m l = .ok a l' → post a

section Returns

variable {α β : Type} {m n : Scan α} {f : α → Scan β} {post : α → Prop} {post' : β → Prop}

theorem Returns.pure {a : α} (h : post a) : Returns (pure a) post := by
  intro l b l' hrun
  cases hrun
  exact h

theorem Returns.bind (h : ∀ a, Returns (f a) post') : Returns (m >>= f) post' := by
  intro l b l' hrun
  obtain ⟨a, l₁, -, hrest⟩ := bind_eq_ok.mp hrun
  exact h a l₁ b l' hrest

theorem Returns.raise {code : ErrorCode} {at_ : Nat} {msg : String} :
    Returns (raise code at_ msg : Scan α) post := by
  intro l b l' hrun
  cases hrun

theorem Returns.lexError {at_ : Nat} {msg : String} :
    Returns (lexError at_ msg : Scan α) post := .bind fun _ => .raise

theorem Returns.ite {c : Prop} [Decidable c] (h : c → Returns m post) (h' : ¬ c → Returns n post) :
    Returns (if c then m else n) post := by
  split
  · next hc => exact h hc
  · next hc => exact h' hc

end Returns

theorem scanWhile_all (p : UInt8 → Bool) (bs : Bytes) :
    ∀ l : Lexer, (∀ b ∈ (Lexer.scanWhile p bs l).1, p b = true) ∧
      ∀ c rest, bs = c :: rest → p c = true → ∃ cs, (Lexer.scanWhile p bs l).1 = c :: cs := by
  induction bs with
  | nil => exact fun l => ⟨by simp [Lexer.scanWhile], by simp⟩
  | cons b bs ih =>
      intro l
      rw [Lexer.scanWhile]
      split
      · next hb =>
        obtain ⟨hall, -⟩ := ih (l.forward b bs)
        refine ⟨?_, fun c rest heq _ => ⟨_, by cases heq; rfl⟩⟩
        simpa [hb] using hall
      · next hb =>
        refine ⟨by simp, fun c rest heq hc => ?_⟩
        cases heq
        exact absurd hc hb

theorem lexIdentOrKeyword_named {l l' : Lexer} {t : Token} {c : UInt8} {rest : Bytes}
    (hl : l.rest = c :: rest) (hc : isIdentStart c = true)
    (h : lexIdentOrKeyword l = .ok t l') : t.Named := by
  have hpart : isIdentPart c = true := by simp [isIdentPart, hc]
  obtain ⟨hall, hhead⟩ := scanWhile_all isIdentPart l.rest l
  obtain ⟨cs, hword⟩ := hhead c rest hl hpart
  cases h
  intro hkind
  refine { start := ⟨c, cs, hword, hc⟩, part := hall, notKeyword := ?_ }
  show keyword? (Lexer.scanWhile isIdentPart l.rest l).1 = none
  change (keyword? (Lexer.scanWhile isIdentPart l.rest l).1).getD .kIdent = .kIdent at hkind
  revert hkind
  unfold keyword?
  split_ifs <;> simp

/-- The kinds of tokens that are spelled by something else than a word. -/
def TokenKind.Marked (kind : TokenKind) : Prop := kind ≠ .kIdent ∧ kind ≠ .kEof

instance (kind : TokenKind) : Decidable kind.Marked := inferInstanceAs (Decidable (_ ∧ _))

theorem lexNumber_kind : Returns lexNumber fun t => t.kind.Marked := by
  have hint : TokenKind.kInt.Marked := by decide
  have hfloat : TokenKind.kFloat.Marked := by decide
  refine .bind fun l => .ite (fun _ => ?_) fun _ => .bind fun digits => .bind fun fraction =>
    .bind fun exponent => ?_
  · refine .bind fun l => .bind fun _ => .bind fun _ => .bind fun digits => .ite (fun _ => ?_)
      fun _ => .pure hint
    exact .bind fun _ => .pure hint
  · refine .ite (fun _ => .ite (fun _ => .bind fun _ => .pure hint) fun _ => .pure hint) fun _ => ?_
    dsimp only
    split
    · exact .pure hfloat
    · exact .raise

theorem lexString_kind : Returns lexString fun t => t.kind.Marked :=
  .bind fun _ => .bind fun _ => .bind fun _ => .bind fun _ => .pure ⟨by simp, by simp⟩

theorem punctuator_ite {c : Prop} [Decidable c] {x : TokenKind × Bool}
    {y : Option (TokenKind × Bool)} (hx : x.1.Marked) (hy : ∀ z ∈ y, z.1.Marked) :
    ∀ z ∈ (if c then some x else y), z.1.Marked := by
  split
  · simpa using hx
  · exact hy

theorem punctuator_kind {c d : UInt8} : ∀ z ∈ punctuator? c d, z.1.Marked := by
  unfold punctuator?
  repeat refine punctuator_ite (by (repeat' split) <;> decide) ?_
  nofun

theorem lexPunctuator_kind : Returns lexPunctuator fun t => t.kind.Marked := by
  refine .bind fun _ => .bind fun c => .bind fun l => ?_
  split
  · next kind two hkind =>
    have hmarked : kind.Marked := punctuator_kind _ hkind
    exact .ite (fun _ => .bind fun _ => .pure hmarked) fun _ => .pure hmarked
  · exact .lexError

theorem lexIdentOrKeyword_kind : Returns lexIdentOrKeyword fun t => t.kind ≠ .kEof := by
  refine .bind fun l => .bind fun word => .pure ?_
  show (keyword? word).getD .kIdent ≠ .kEof
  unfold keyword?
  split_ifs <;> simp

/-- In front of a byte the scanner does not find the end of the input. -/
theorem lexToken_ne_eof {l l' : Lexer} {t : Token} (hl : l.atEnd = false)
    (h : lexToken l = .ok t l') : t.kind ≠ .kEof := by
  rw [lexToken, bind_of_ok (get_run l)] at h
  simp only [hl, Bool.false_eq_true, if_false] at h
  rw [ite_run] at h
  split at h
  · exact lexIdentOrKeyword_kind _ _ _ h
  · rw [ite_run] at h
    split at h
    · exact (lexNumber_kind _ _ _ h).2
    · rw [ite_run] at h
      split at h
      · exact (lexString_kind _ _ _ h).2
      · exact (lexPunctuator_kind _ _ _ h).2

theorem nextToken_named {l l' : Lexer} {t : Token} (h : nextToken l = .ok t l') : t.Named := by
  rw [nextToken] at h
  obtain ⟨-, l₁, -, h⟩ := bind_eq_ok.mp h
  rw [lexToken, bind_of_ok (get_run l₁)] at h
  cases hrest : l₁.rest with
  | nil =>
      have hend : l₁.atEnd = true := by simp [Lexer.atEnd, hrest]
      simp only [hend, if_true] at h
      cases h
      intro hkind
      cases hkind
  | cons c rest =>
      simp only [Lexer.atEnd_cons hrest, Bool.false_eq_true, if_false, Lexer.peek_cons hrest] at h
      rw [ite_run] at h
      split at h
      · next hc => exact lexIdentOrKeyword_named hrest hc h
      · rw [ite_run] at h
        split at h
        · exact fun hkind => absurd hkind (lexNumber_kind _ _ _ h).1
        · rw [ite_run] at h
          split at h
          · exact fun hkind => absurd hkind (lexString_kind _ _ _ h).1
          · exact fun hkind => absurd hkind (lexPunctuator_kind _ _ _ h).1

/-! ### Expressions -/

mutual

/-- Every key of an object literal is a name. -/
def Expr.Keyed : Expr → Prop
  | .array _ elements => ElementsKeyed elements
  | .object _ fields => FieldsKeyed fields
  | .unary _ _ operand => operand.Keyed
  | .binary _ _ lhs rhs => lhs.Keyed ∧ rhs.Keyed
  | .ternary _ cond then_ else_ => cond.Keyed ∧ then_.Keyed ∧ else_.Keyed
  | _ => True

def ElementsKeyed : List Expr → Prop
  | [] => True
  | e :: es => e.Keyed ∧ ElementsKeyed es

def FieldsKeyed : List (Bytes × Expr) → Prop
  | [] => True
  | (key, e) :: fields => IsName key ∧ e.Keyed ∧ FieldsKeyed fields

end

def Phrase.Keyed : Phrase → Prop
  | .expr e | .binary _ e | .unary e | .primary e => e.Keyed
  | .elements es => ElementsKeyed es
  | .fields fs => FieldsKeyed fs

theorem Level.operand_keyed {level : Level} {e : Expr} : (level.operand e).Keyed ↔ e.Keyed := by
  rw [Level.operand]
  cases level.tighter <;> exact Iff.rfl

theorem Leaf.keyed {t : Token} {e : Expr} (h : Leaf t e) : e.Keyed := by
  cases h <;> simp [Expr.Keyed]

theorem Derives.keyed {φ : Phrase} {ts : List Token} (h : Derives φ ts) :
    (∀ t ∈ ts, t.Named) → φ.Keyed := by
  induction h with
  | plain _ ih | primary _ ih => exact ih
  | last _ ih => exact fun hts => ⟨ih hts, trivial⟩
  | operand _ ih => exact fun hts => Level.operand_keyed.mp (ih hts)
  | ternary _ _ _ _ _ ihc iht ihe =>
      simp only [List.forall_mem_append, List.forall_mem_cons]
      rintro ⟨hc, -, ht, -, he⟩
      exact ⟨ihc hc, iht ht, ihe he⟩
  | binary _ _ _ ihl ihr =>
      simp only [List.forall_mem_append, List.forall_mem_cons]
      rintro ⟨hl, -, hr⟩
      exact ⟨ihl hl, Level.operand_keyed.mp (ihr hr)⟩
  | unary _ _ ih => exact fun hts => ih (List.forall_mem_cons.mp hts).2
  | leaf h => exact fun _ => h.keyed
  | paren _ _ _ ih | array _ _ _ ih | object _ _ _ ih =>
      simp only [List.forall_mem_append, List.forall_mem_cons]
      rintro ⟨-, hts, -⟩
      exact ih hts
  | emptyArray | noFields => exact fun _ => trivial
  | lastComma _ _ ih =>
      simp only [List.forall_mem_append]
      rintro ⟨hts, -⟩
      exact ⟨ih hts, trivial⟩
  | element _ _ _ ih ihs =>
      simp only [List.forall_mem_append, List.forall_mem_cons]
      rintro ⟨ht, -, hs⟩
      exact ⟨ih ht, ihs hs⟩
  | stray _ _ ih => exact fun hts => ih (List.forall_mem_cons.mp hts).2
  | field hk _ _ _ _ ih ihs =>
      simp only [List.forall_mem_append, List.forall_mem_cons]
      rintro ⟨hkey, -, ht, -, hs⟩
      exact ⟨hkey hk, ih ht, ihs hs⟩

/-! ### Parser states -/

section States

variable {p q : Parser Lexer} {t : Token} {ts : List Token}

theorem named_of_take (h : take p = .ok t q) : q.cur.Named := by
  rw [take] at h
  split at h
  · next hnext =>
    cases h
    exact nextToken_named hnext
  · cases h

theorem Takes.named (h : Takes p ts q) (hp : p.cur.Named) :
    (∀ t ∈ ts, t.Named) ∧ q.cur.Named := by
  induction h with
  | nil => exact ⟨by simp, hp⟩
  | cons htake _ ih =>
      obtain ⟨hall, hq⟩ := ih (named_of_take htake)
      exact ⟨List.forall_mem_cons.mpr ⟨hp, hall⟩, hq⟩

theorem named_of_expect {kind : TokenKind} {what : String} (h : expect kind what p = .ok t q) :
    q.cur.Named := by
  obtain ⟨-, -, htake⟩ := expect_eq_ok h
  exact named_of_take htake

theorem named_of_accept {kind : TokenKind} {b : Bool} (h : accept kind p = .ok b q)
    (hp : p.cur.Named) : q.cur.Named := by
  obtain ⟨-, -, htake⟩ | ⟨-, -, rfl⟩ := accept_eq_ok h
  · exact named_of_take htake
  · exact hp

end States

/-- `e` is what the expression parser returned, at the depth that every statement calls it with. -/
def Expr.Accepted (e : Expr) : Prop :=
  ∃ p q : Parser Lexer, p.cur.Named ∧ parseExpr 1 p = .ok e q

theorem Expr.Accepted.keyed {e : Expr} (h : e.Accepted) : e.Keyed := by
  obtain ⟨p, q, hp, hrun⟩ := h
  obtain ⟨ts, htakes, hder⟩ := (productions_sound kMaxDepth).expr hrun
  exact hder.keyed (htakes.named hp).1

/-! ### Statements -/

mutual

/-- The names are names, blocks are nested at most `room` deep, and expressions are accepted. -/
def ParsedStatement.Accepted : (room : Nat) → ParsedStatement → Prop
  | room, .assignment _ path e =>
    1 ≤ room ∧ path ≠ [] ∧ (∀ name ∈ path, IsName name) ∧ e.Accepted
  | room, .block _ name _ children => 1 ≤ room ∧ IsName name ∧ StatementsAccepted (room - 1) children
  | room, .include _ _ => 1 ≤ room

def StatementsAccepted : (room : Nat) → List ParsedStatement → Prop
  | _, [] => True
  | room, st :: stmts => st.Accepted room ∧ StatementsAccepted room stmts

end

/-- Whatever a parser returns in front of a proper token satisfies `post`, and it stops in front of
one. -/
def Accepts {α : Type} (m : Parse Lexer α) (post : α → Prop) : Prop :=
  ∀ p a q, p.cur.Named → m p = .ok a q → post a ∧ q.cur.Named

theorem parsePath_accepts (fuel : Nat) :
    Accepts (parsePath fuel) fun path => ∀ name ∈ path, IsName name := by
  induction fuel with
  | zero =>
      intro p path q _ h
      cases h
  | succ fuel ih =>
      intro p path q hp h
      rw [parsePath] at h
      obtain ⟨dot, p₁, hdot, h⟩ := bind_eq_ok.mp h
      have hp₁ := named_of_accept hdot hp
      rw [ite_run] at h
      split at h
      · obtain ⟨part, p₂, hpart, h⟩ := bind_eq_ok.mp h
        obtain ⟨path', p₃, hpath, h⟩ := bind_eq_ok.mp h
        cases h
        obtain ⟨hkind, rfl, htake⟩ := expect_eq_ok hpart
        obtain ⟨hnames, hq⟩ := ih p₂ path' q (named_of_take htake) hpath
        exact ⟨List.forall_mem_cons.mpr ⟨hp₁ hkind, hnames⟩, hq⟩
      · cases h
        exact ⟨by simp, hp₁⟩

theorem parseExpr_accepts : Accepts (parseExpr 1) Expr.Accepted := by
  intro p e q hp h
  obtain ⟨ts, htakes, -⟩ := (productions_sound kMaxDepth).expr h
  exact ⟨⟨p, q, hp, h⟩, (htakes.named hp).2⟩

theorem parseAssignment_accepts {path : List Bytes} (hpath : path ≠ [])
    (hnames : ∀ name ∈ path, IsName name) (offset room : Nat) :
    Accepts (parseAssignment path offset) (ParsedStatement.Accepted (room + 1)) := by
  intro p st q hp h
  rw [parseAssignment] at h
  obtain ⟨_, p₁, hassign, h⟩ := bind_eq_ok.mp h
  obtain ⟨e, p₂, he, h⟩ := bind_eq_ok.mp h
  obtain ⟨_, p₃, hsemi, h⟩ := bind_eq_ok.mp h
  cases h
  obtain ⟨haccepted, -⟩ := parseExpr_accepts p₁ e p₂ (named_of_expect hassign) he
  exact ⟨⟨Nat.succ_pos room, hpath, hnames, haccepted⟩, named_of_expect hsemi⟩

section Blocks

variable {room : Nat} {nested : Parse Lexer ParsedStatement}

theorem parseChildren_accepts (hnested : Accepts nested (ParsedStatement.Accepted room))
    (offset fuel : Nat) : Accepts (parseChildren nested offset fuel) (StatementsAccepted room) := by
  induction fuel with
  | zero =>
      intro p stmts q _ h
      cases h
  | succ fuel ih =>
      intro p stmts q hp h
      rw [parseChildren, bind_of_ok (check_run _ p), ite_run] at h
      split at h
      · cases h
        exact ⟨trivial, hp⟩
      · rw [bind_of_ok (check_run _ p), ite_run] at h
        split at h
        · cases h
        · obtain ⟨semi, p₁, hsemi, h⟩ := bind_eq_ok.mp h
          have hp₁ := named_of_accept hsemi hp
          rw [ite_run] at h
          split at h
          · exact ih p₁ stmts q hp₁ h
          · obtain ⟨st, p₂, hst, h⟩ := bind_eq_ok.mp h
            obtain ⟨stmts', p₃, hstmts, h⟩ := bind_eq_ok.mp h
            cases h
            obtain ⟨haccepted, hp₂⟩ := hnested p₁ st p₂ hp₁ hst
            obtain ⟨hall, hp₃⟩ := ih p₂ stmts' q hp₂ hstmts
            exact ⟨⟨haccepted, hall⟩, hp₃⟩

theorem parseBlock_accepts (hnested : Accepts nested (ParsedStatement.Accepted room))
    (offset : Nat) : Accepts (parseBlock nested offset) (StatementsAccepted room) := by
  intro p stmts q hp h
  rw [parseBlock] at h
  obtain ⟨_, p₁, hopen, h⟩ := bind_eq_ok.mp h
  rw [bind_of_ok (get_run p₁)] at h
  obtain ⟨children, p₂, hchildren, h⟩ := bind_eq_ok.mp h
  obtain ⟨_, p₃, hclose, h⟩ := bind_eq_ok.mp h
  cases h
  obtain ⟨hall, -⟩ := parseChildren_accepts hnested offset _ p₁ _ p₂ (named_of_expect hopen) hchildren
  exact ⟨hall, named_of_expect hclose⟩

theorem parseStatementWith_accepts (hnested : Accepts nested (ParsedStatement.Accepted room)) :
    Accepts (parseStatementWith nested) (ParsedStatement.Accepted (room + 1)) := by
  intro p st q hp h
  rw [parseStatementWith, bind_of_ok (get_run p), bind_of_ok (check_run _ p), ite_run] at h
  split at h
  · obtain ⟨_, p₁, -, h⟩ := bind_eq_ok.mp h
    obtain ⟨path, p₂, -, h⟩ := bind_eq_ok.mp h
    obtain ⟨_, p₃, hsemi, h⟩ := bind_eq_ok.mp h
    cases h
    exact ⟨Nat.succ_pos room, named_of_expect hsemi⟩
  · obtain ⟨first, p₁, hfirst, h⟩ := bind_eq_ok.mp h
    obtain ⟨hkind, rfl, htake⟩ := expect_eq_ok hfirst
    have hname : IsName p.cur.text := hp hkind
    have hp₁ := named_of_take htake
    rw [bind_of_ok (check_run _ p₁), ite_run] at h
    split at h
    · obtain ⟨label, p₂, hlabel, h⟩ := bind_eq_ok.mp h
      rw [bind_of_ok (get_run p₂)] at h
      rw [ite_run] at h
      split at h
      · cases h
      · obtain ⟨children, p₃, hblock, h⟩ := bind_eq_ok.mp h
        cases h
        obtain ⟨hall, hq⟩ := parseBlock_accepts hnested _ p₂ children q (named_of_take hlabel) hblock
        exact ⟨⟨Nat.succ_pos room, hname, hall⟩, hq⟩
    · rw [bind_of_ok (check_run _ p₁), ite_run] at h
      split at h
      · obtain ⟨children, p₃, hblock, h⟩ := bind_eq_ok.mp h
        cases h
        obtain ⟨hall, hq⟩ := parseBlock_accepts hnested _ p₁ children q hp₁ hblock
        exact ⟨⟨Nat.succ_pos room, hname, hall⟩, hq⟩
      · rw [bind_of_ok (get_run p₁)] at h
        obtain ⟨path, p₂, hpath, h⟩ := bind_eq_ok.mp h
        obtain ⟨hnames, hp₂⟩ := parsePath_accepts _ p₁ path p₂ hp₁ hpath
        exact parseAssignment_accepts (List.cons_ne_nil _ _) (List.forall_mem_cons.mpr ⟨hname, hnames⟩)
          _ room p₂ st q hp₂ h

end Blocks

theorem parseStatementIn_accepts (room : Nat) :
    Accepts (parseStatementIn room) (ParsedStatement.Accepted room) := by
  induction room with
  | zero => exact fun p st q _ h => absurd h tooDeep_ne_ok
  | succ room ih => exact parseStatementWith_accepts ih

/-- A round of the loop of `parse_document`. -/
theorem parseStatements_cases {σ : Type} [TokenSource σ] {p q : Parser σ} {fuel : Nat}
    {stmts : List ParsedStatement} (h : parseStatements (fuel + 1) p = .ok stmts q) :
    (p.cur.kind = .kEof ∧ stmts = [] ∧ q = p) ∨
      (p.cur.kind = .kSemicolon ∧ ∃ r, take p = .ok p.cur r ∧ parseStatements fuel r = .ok stmts q) ∨
      (p.cur.kind ≠ .kEof ∧ p.cur.kind ≠ .kSemicolon ∧ ∃ st rest r, stmts = st :: rest ∧
        parseStatement 1 p = .ok st r ∧ parseStatements fuel r = .ok rest q) := by
  rw [parseStatements, bind_of_ok (check_run _ p), ite_run] at h
  split at h
  · next heof =>
    cases h
    exact .inl ⟨of_decide_eq_true heof, rfl, rfl⟩
  · next heof =>
    obtain ⟨semi, p₁, hsemi, hround⟩ := bind_eq_ok.mp h
    rw [ite_run] at hround
    rcases accept_eq_ok hsemi with ⟨rfl, hcur, htake⟩ | ⟨rfl, hcur, rfl⟩
    · exact .inr (.inl ⟨hcur, p₁, htake, hround⟩)
    · rw [if_neg Bool.false_ne_true] at hround
      obtain ⟨st, p₂, hst, hround⟩ := bind_eq_ok.mp hround
      obtain ⟨rest, p₃, hrest, hround⟩ := bind_eq_ok.mp hround
      cases hround
      exact .inr (.inr ⟨by simpa using heof, hcur, st, rest, p₂, rfl, hst, hrest⟩)

theorem parseStatements_accepts (fuel : Nat) :
    Accepts (parseStatements fuel) (StatementsAccepted kMaxDepth) := by
  induction fuel with
  | zero =>
      intro p stmts q _ h
      cases h
  | succ fuel ih =>
      intro p stmts q hp h
      rcases parseStatements_cases h with ⟨-, rfl, rfl⟩ | ⟨-, r, htake, h⟩ |
        ⟨-, -, st, rest, r, rfl, hst, hrest⟩
      · exact ⟨trivial, hp⟩
      · exact ih r stmts q (named_of_take htake) h
      · obtain ⟨haccepted, hr⟩ := parseStatementIn_accepts kMaxDepth p st r hp hst
        obtain ⟨hall, hq⟩ := ih r rest q hr hrest
        exact ⟨⟨haccepted, hall⟩, hq⟩

theorem parseSource_eq_ok {data : Bytes} {stmts : List ParsedStatement}
    (h : parseSource data = .ok stmts) :
    ∃ p q, Parser.start ({ rest := data } : Lexer) = .ok p ∧
      parseStatements p.fuel p = .ok stmts q := by
  rw [parseSource] at h
  obtain ⟨p, hstart, h⟩ := outcome_bind_eq_ok.mp h
  split at h
  · next hrun =>
    cases h
    exact ⟨p, _, hstart, hrun⟩
  · cases h

theorem start_eq_ok {l : Lexer} {p : Parser Lexer} (h : Parser.start l = .ok p) :
    nextToken l = .ok p.cur p.lexer := by
  rw [Parser.start] at h
  split at h
  · next hnext =>
    cases h
    exact hnext
  · cases h

theorem parseSource_accepted {data : Bytes} {stmts : List ParsedStatement}
    (h : parseSource data = .ok stmts) : StatementsAccepted kMaxDepth stmts := by
  obtain ⟨p, q, hstart, hrun⟩ := parseSource_eq_ok h
  have hp : p.cur.Named := nextToken_named (start_eq_ok hstart)
  exact (parseStatements_accepts _ p _ _ hp hrun).1

end Bytewright.Cfgscript
