import Bytewright.Verification.Cfgscript.Completeness
import Bytewright.Verification.Cfgscript.Lookahead

/-! # Parsing canonical text

The parser reads canonical text back as an expression or statement that evaluates to what the text
stands for, if the integers in it are in range and its nesting fits; otherwise it throws. -/

namespace Bytewright.Cfgscript

open Bytewright.Common Bytewright.Library

/-- `m` returns with `post` if `fits` holds, and throws if it does not. -/
structure Settles {σ α : Type} (m : Parse σ α) (p : Parser σ) (fits : Prop)
    (post : α → Parser σ → Prop) : Prop where
  ok : fits → ∃ a q, m p = .ok a q ∧ post a q
  error : ¬ fits → ∃ e q, m p = .error e q

section Settles

variable {σ α β : Type} {m m' : Parse σ α} {p q : Parser σ} {a : α} {fits fits' : Prop}
  {post : α → Parser σ → Prop} {post' : β → Parser σ → Prop} {f : α → Parse σ β}

theorem Settles.of_ok (h : m p = .ok a q) (hpost : post a q) : Settles m p True post where
  ok _ := ⟨a, q, h, hpost⟩
  error hfits := absurd trivial hfits

theorem Settles.of_error {e : Fault} (h : m p = .error e q) : Settles m p False post where
  ok hfits := hfits.elim
  error _ := ⟨e, q, h⟩

theorem Settles.congr (h : Settles m q fits post) (heq : m' p = m q) : Settles m' p fits post where
  ok hfits := by rw [heq]; exact h.ok hfits
  error hfits := by rw [heq]; exact h.error hfits

theorem Settles.iff (h : Settles m p fits post) (heq : fits' ↔ fits) : Settles m p fits' post where
  ok hfits := h.ok (heq.mp hfits)
  error hfits := h.error (mt heq.mpr hfits)

/-- A step that returns, then the rest. -/
theorem Settles.step (h : m p = .ok a q) (h' : Settles (f a) q fits post') :
    Settles (m >>= f) p fits post' := h'.congr (bind_of_ok h)

theorem Settles.bind (h : Settles m p fits post)
    (h' : ∀ a q, post a q → Settles (f a) q fits' post') :
    Settles (m >>= f) p (fits ∧ fits') post' := by
  by_cases hfits : fits
  · rcases h.ok hfits with ⟨a, q, hrun, hpost⟩
    exact ((h' a q hpost).step hrun).iff (and_iff_right hfits)
  · rcases h.error hfits with ⟨e, q, hrun⟩
    refine (Settles.of_error (bind_of_error hrun)).iff ?_
    simp [hfits]

/-- A step that decides, then a rest that returns. -/
theorem Settles.andThen (h : Settles m p fits post)
    (h' : ∀ a q, post a q → Settles (f a) q True post') : Settles (m >>= f) p fits post' :=
  (h.bind h').iff (and_true fits).symm.to_iff

theorem Settles.map {g : α → β} (h : Settles m p fits post)
    (hpost : ∀ a q, post a q → post' (g a) q) :
    Settles (m >>= fun a => pure (g a)) p fits post' :=
  h.andThen fun a q hq => .of_ok rfl (hpost a q hq)

theorem Settles.imp {post₂ : α → Parser σ → Prop} (h : Settles m p fits post)
    (hpost : ∀ a q, fits → post a q → post₂ a q) : Settles m p fits post₂ where
  ok hfits := by
    rcases h.ok hfits with ⟨a, q, hrun, hq⟩
    exact ⟨a, q, hrun, hpost a q hfits hq⟩
  error := h.error

end Settles

/-! ### Values that fit -/

mutual

/-- Whether `parse_expr` reads the text of a value back when `room` levels of nesting are left: two
for the value, two more for every aggregate around, and one more for a minus sign. The least integer
is spelled with digits that are out of range. -/
def Value.fits (room : Nat) : Value → Bool
  | .int i => 2 ≤ room && (0 ≤ i || (3 ≤ room && i ≠ kInt64Min))
  | .array vs => 2 ≤ room && elementsFit (room - 2) vs
  | .object fields => 2 ≤ room && fieldsFit (room - 2) fields
  | _ => 2 ≤ room

def elementsFit (room : Nat) : List Value → Bool
  | [] => true
  | v :: vs => v.fits room && elementsFit room vs

def fieldsFit (room : Nat) : List (Bytes × Value) → Bool
  | [] => true
  | (_, v) :: fields => v.fits room && fieldsFit room fields

end

/-- `e` evaluates to `v` wherever the evaluator has as much room left as the parser had. -/
def Evaluates (room : Nat) (e : Expr) (v : Value) : Prop :=
  ∀ env depth, depth + room ≤ kMaxDepth + 1 → evaluate env depth e = .ok v

def EvaluatesAll (room : Nat) (es : List Expr) (vs : List Value) : Prop :=
  ∀ env depth, depth + room ≤ kMaxDepth + 1 → evaluateElements env depth es = .ok vs

def EvaluatesFields (room : Nat) (es : List (Bytes × Expr)) (fields : List (Bytes × Value)) : Prop :=
  ∀ env depth, depth + room ≤ kMaxDepth + 1 → evaluateFields env depth es = .ok fields

theorem requireDepth_ok {depth room at_ : Nat} (h : depth + room ≤ kMaxDepth + 1) (hroom : 1 ≤ room) :
    requireDepth depth at_ = .ok () := by
  rw [requireDepth, if_neg (by omega)]
  rfl

/-! ### Expressions -/

section Expressions

variable {σ : Type} [TokenSource σ] {p q : Parser σ} {e : Expr} {below : Deeper σ} {fits : Prop}
  {room : Nat} {post : Expr → Parser σ → Prop}

/-- A unary expression that nothing continues is an expression. -/
theorem parseTernary_of_unary (h : below.unary p = .ok e q) (hstop : ¬ Continues q.cur.kind) :
    parseTernary below p = .ok e q := by
  have hprec := precedence_of_not_continues hstop
  have hbinary : parseBinary below 1 p = .ok e q := by
    rw [parseBinary, bind_of_ok h, bind_of_ok (get_run q)]
    exact binaryLoop_of_lt q.left_lt_fuel (by rw [hprec]; decide)
  have hquestion : q.cur.kind ≠ .kQuestion := fun heq => hstop (.inl heq)
  rw [parseTernary, bind_of_ok hbinary, bind_of_ok (check_run _ q)]
  simp only [hquestion, decide_false, Bool.false_eq_true, if_false]
  rfl

theorem parseTernary_of_error {f : Fault} (h : below.unary p = .error f q) :
    parseTernary below p = .error f q := by
  have hbinary : parseBinary below 1 p = .error f q := by
    rw [parseBinary]
    exact bind_of_error h
  rw [parseTernary]
  exact bind_of_error hbinary

theorem settles_expr_unary (h : ∀ r, room = r + 2 → Settles (productions (r + 1)).unary p fits post)
    (hstop : ∀ e q, post e q → ¬ Continues q.cur.kind) :
    Settles (productions room).expr p (2 ≤ room ∧ fits) post := by
  match room, h with
  | 0, _ =>
      have hfits : (2 ≤ 0 ∧ fits) ↔ False := by simp
      exact Settles.iff (Settles.of_error rfl) hfits
  | 1, _ =>
      have hfits : (2 ≤ 1 ∧ fits) ↔ False := by simp
      exact Settles.iff (Settles.of_error (parseTernary_of_error rfl)) hfits
  | r + 2, h =>
      have hfits : (2 ≤ r + 2 ∧ fits) ↔ fits := and_iff_right (by omega)
      refine Settles.iff ?_ hfits
      constructor
      · intro hfits
        rcases (h r rfl).ok hfits with ⟨e, q, hrun, hpost⟩
        exact ⟨e, q, parseTernary_of_unary hrun (hstop e q hpost), hpost⟩
      · intro hfits
        rcases (h r rfl).error hfits with ⟨f, q, hrun⟩
        exact ⟨f, q, parseTernary_of_error hrun⟩

theorem settles_unary_primary (hunary : isUnaryOp p.cur.kind = false)
    (h : Settles (parsePrimary (productions room)) p fits post) :
    Settles (productions (room + 1)).unary p fits post := by
  refine h.congr ?_
  show parseUnary (productions room) p = _
  rw [parseUnary, bind_of_ok (get_run p)]
  simp only [hunary, Bool.false_eq_true, if_false]

/-- A primary that nothing continues. -/
theorem settles_expr_primary (hunary : isUnaryOp p.cur.kind = false)
    (h : ∀ r, room = r + 2 → Settles (parsePrimary (productions r)) p fits post)
    (hstop : ∀ e q, post e q → ¬ Continues q.cur.kind) :
    Settles (productions room).expr p (2 ≤ room ∧ fits) post :=
  settles_expr_unary (fun r hr => settles_unary_primary hunary (h r hr)) hstop

end Expressions

/-! ### What text is read as -/

/-- A statement has `node` for its node, in any scopes. -/
def Builds (st : ParsedStatement) (node : Node) : Prop :=
  ∀ env, ∃ env', buildNode env st = .ok (node, env')

def BuildsAll (stmts : List ParsedStatement) (nodes : List Node) : Prop :=
  ∀ env, ∃ env', buildNodes env stmts = .ok (nodes, env')

/-- The values that are assigned can be read back. -/
abbrev Node.Fits (node : Node) : Prop := node.AllValues fun v => v.fits kMaxDepth = true

abbrev NodesFit (nodes : List Node) : Prop := AllNodes (fun v => v.fits kMaxDepth = true) nodes

/-- What the parser is to do in front of a piece of text. -/
def Reads (t : Bytes) : Content → Prop
  | .value v => ∀ room {p : Parser Lexer} {c} rest, c ∈ follows → p.At (t ++ c :: rest) →
      Settles (productions room).expr p (v.fits room = true) fun e q =>
        q.At (c :: rest) ∧ Evaluates room e v
  | .elements vs => ∀ room fuel {p : Parser Lexer} rest, vs.length ≤ fuel →
      p.At (t ++ ch ']' :: rest) →
      Settles (parseElements (productions room).expr fuel) p (elementsFit room vs = true) fun es q =>
        q.At (ch ']' :: rest) ∧ EvaluatesAll room es vs
  | .fields fields => ∀ room offset fuel {p : Parser Lexer} rest, fields.length < fuel →
      p.At (t ++ ch '}' :: rest) →
      Settles (parseFields (productions room).expr offset fuel) p (fieldsFit room fields = true)
        fun es q => q.At (ch '}' :: rest) ∧ EvaluatesFields room es fields
  | .node node => ∀ room {p : Parser Lexer} {rest}, node.WellFormed room → Ready rest →
      p.At (t ++ rest) →
      Settles (parseStatementIn room) p node.Fits fun st q => q.At rest ∧ Builds st node
  | .nodes nodes => ∀ room offset fuel {p : Parser Lexer} rest, NodesWellFormed room nodes →
      nodes.length < fuel → p.At (t ++ ch '}' :: rest) →
      Settles (parseChildren (parseStatementIn room) offset fuel) p (NodesFit nodes) fun stmts q =>
        q.At (ch '}' :: rest) ∧ BuildsAll stmts nodes

/-! ### Scalars -/

section Scalars

variable {p : Parser Lexer} {text rest t : Bytes} {tok : Token} {leaf : Nat → Expr} {v : Value}
  {c : UInt8}

theorem Parser.At.not_continues (hc : c ∈ follows) (h : p.At (c :: rest)) :
    ¬ Continues p.cur.kind := by
  rcases scans_follows hc rest with ⟨kind, hkind, hscan⟩
  rw [h.cur_kind hscan]
  apply not_continues_of_closing
  revert hkind
  cases kind <;> decide

theorem settles_leaf (below : Deeper Lexer) (hp : p.At text) (hscan : Scans text tok rest)
    (hrest : Ready rest) (hleaf : ∀ offset, leaf? { tok with offset } = some (leaf offset)) :
    Settles (parsePrimary below) p True fun e q => q.At rest ∧ ∃ offset, e = leaf offset := by
  rcases hp.take hscan hrest with ⟨q, htake, hq⟩
  rcases (hp.cur hscan).1 with ⟨offset, hcur⟩
  refine .of_ok (parsePrimary_of_leaf ?_ htake) ⟨hq, offset, rfl⟩
  rw [hcur, hleaf]

theorem reads_scalar (tok : Token) (leaf : Nat → Expr)
    (hscan : ∀ c ∈ follows, ∀ rest, Scans (t ++ c :: rest) tok (c :: rest))
    (hleaf : ∀ offset, leaf? { tok with offset } = some (leaf offset))
    (hunary : isUnaryOp tok.kind = false) (hfits : ∀ room, v.fits room = true ↔ 2 ≤ room)
    (heval : ∀ offset env depth, requireDepth depth offset = .ok () →
      evaluate env depth (leaf offset) = .ok v) : Reads t (.value v) := by
  intro room p c rest hc hp
  have hunary : isUnaryOp p.cur.kind = false := by rwa [hp.cur_kind (hscan c hc rest)]
  have hsettle : Settles (productions room).expr p (2 ≤ room ∧ True) fun e q =>
      q.At (c :: rest) ∧ Evaluates room e v := by
    refine settles_expr_primary hunary (fun r hr => ?_) fun e q hq => hq.1.not_continues hc
    rcases (settles_leaf _ hp (hscan c hc rest) (ready_follows hc rest) hleaf).ok trivial with
      ⟨e, q, hrun, hq, offset, rfl⟩
    refine .of_ok hrun ⟨hq, fun env depth hdepth => ?_⟩
    exact heval offset env depth (requireDepth_ok hdepth (by omega))
  exact hsettle.iff (by rw [hfits, and_true])

theorem reads_null : Reads (ascii "null") (.value .null) := by
  refine reads_scalar { kind := .kNull, text := ascii "null" } .null
    (fun c hc rest => scans_null (follows_class c hc)) (fun _ => rfl) rfl ?_ ?_
  · simp [Value.fits]
  · intro offset env depth h
    rw [evaluate, h]
    rfl

theorem reads_bool (b : Bool) : Reads (ascii (if b then "true" else "false")) (.value (.bool b)) := by
  refine reads_scalar
    { kind := if b then .kTrue else .kFalse, text := ascii (if b then "true" else "false") }
    (fun offset => .bool offset b) (fun c hc rest => scans_bool b (follows_class c hc))
    (fun _ => by cases b <;> rfl) (by cases b <;> rfl) ?_ ?_
  · simp [Value.fits]
  · intro offset env depth h
    rw [evaluate, h]
    rfl

theorem reads_str (s : Bytes) : Reads (quoted s) (.value (.str s)) := by
  refine reads_scalar { kind := .kString, text := s } (fun offset => .str offset s)
    (fun c hc rest => scans_quoted s _) (fun _ => rfl) rfl ?_ ?_
  · simp [Value.fits]
  · intro offset env depth h
    rw [evaluate, h]
    rfl

theorem reads_nonneg {i : Int64} (h : ¬ i < 0) : Reads (decimal i.toInt.toNat) (.value (.int i)) := by
  refine reads_scalar { kind := .kInt, intValue := Int64.ofNat i.toInt.toNat }
    (fun offset => .int offset (Int64.ofNat i.toInt.toNat))
    (fun c hc rest => scans_decimal rest hc (toNat_lt i)) (fun _ => rfl) rfl ?_ ?_
  · have hle : 0 ≤ i := Int64.not_lt.mp h
    simp [Value.fits, hle]
  · intro offset env depth hdepth
    rw [evaluate, hdepth, ofNat_toNat h]
    rfl

end Scalars

/-! ### Negative integers -/

/-- A minus sign, and the digits one level deeper. -/
theorem settles_minus {p : Parser Lexer} {i : Int64} (hi : i < 0) {c : UInt8} (hc : c ∈ follows)
    (rest : Bytes) (hp : p.At (ch '-' :: (decimal i.toInt.natAbs ++ c :: rest))) (room : Nat) :
    Settles (productions (room + 1)).unary p (1 ≤ room ∧ i ≠ kInt64Min) fun e q =>
      q.At (c :: rest) ∧ ∃ o o', e = .unary o .kMinus (.int o' (Int64.ofNat i.toInt.natAbs)) := by
  have hminus : Scans (ch '-' :: (decimal i.toInt.natAbs ++ c :: rest)) { kind := .kMinus } _ :=
    scans_punctuator (by decide) rfl
  have hkind : p.cur.kind = .kMinus := hp.cur_kind hminus
  have hunary : (productions (room + 1)).unary p = (do
      let op ← take
      let operand ← (productions room).unary
      return .unary op.offset op.kind operand : Parse Lexer Expr) p := by
    show parseUnary (productions room) p = _
    rw [parseUnary, bind_of_ok (get_run p), hkind]
    rfl
  refine Settles.congr ?_ hunary
  by_cases hmin : i = kInt64Min
  · have hdigits := mt (natAbs_lt hi).mp (not_not_intro hmin)
    rcases hp.take_error hminus (unscannable_decimal rest hc (Nat.not_lt.mp hdigits)) with ⟨e, q, htake⟩
    exact (Settles.of_error (bind_of_error htake)).iff (by simp [hmin])
  · have hdigits := scans_decimal rest hc ((natAbs_lt hi).mpr hmin)
    rcases hp.take hminus ⟨_, _, hdigits⟩ with ⟨q, htake, hq⟩
    apply Settles.step htake
    rw [hkind]
    cases room with
    | zero =>
        have herror : (productions 0 : Deeper Lexer).unary q = tooDeep q := rfl
        exact (Settles.of_error (bind_of_error herror)).iff (by simp)
    | succ room =>
        have hunary : isUnaryOp q.cur.kind = false := by rw [hq.cur_kind hdigits]; rfl
        have hleaf := settles_unary_primary hunary
          (settles_leaf (productions room) hq hdigits (ready_follows hc rest) fun _ => rfl)
        refine Settles.iff (hleaf.map fun e r hr => ?_) (by simp [hmin])
        rcases hr with ⟨hr, offset, rfl⟩
        exact ⟨hr, _, offset, rfl⟩

theorem evaluates_minus {i : Int64} (hi : i < 0) {room o o' : Nat} (hroom : 3 ≤ room) :
    Evaluates room (.unary o .kMinus (.int o' (Int64.ofNat i.toInt.natAbs))) (.int i) := by
  intro env depth hdepth
  have hdepth' : depth + 1 + (room - 1) ≤ kMaxDepth + 1 := by omega
  rw [evaluate, requireDepth_ok hdepth (by omega), evaluate, requireDepth_ok hdepth' (by omega)]
  show Except.ok (Value.int (-Int64.ofNat i.toInt.natAbs)) = _
  rw [neg_ofNat_natAbs hi]

theorem reads_neg {i : Int64} (hi : i < 0) :
    Reads (ch '-' :: decimal i.toInt.natAbs) (.value (.int i)) := by
  intro room p c rest hc hp
  have hsettle : Settles (productions room).expr p (2 ≤ room ∧ (3 ≤ room ∧ i ≠ kInt64Min)) fun e q =>
      q.At (c :: rest) ∧ Evaluates room e (.int i) := by
    refine settles_expr_unary (fun r hr => ?_) fun e q hq => hq.1.not_continues hc
    have hroom : 3 ≤ room ↔ 1 ≤ r := by omega
    rw [hroom]
    refine (settles_minus hi hc rest hp r).imp fun e q hfits hq => ?_
    rcases hq with ⟨hq, o, o', rfl⟩
    exact ⟨hq, evaluates_minus hi (hroom.mpr hfits.1)⟩
  refine hsettle.iff ?_
  have hneg : ¬ 0 ≤ i := Int64.not_le.mpr hi
  simp [Value.fits, hneg]

/-! ### Aggregates -/

/-- An aggregate: a primary in brackets of its own. -/
theorem settles_aggregate {p : Parser Lexer} {room : Nat} {c : UInt8} {rest : Bytes} {fits : Prop}
    {v : Value} (hc : c ∈ follows) (hopening : p.cur.kind ∈ [TokenKind.kLParen, .kLBracket, .kLBrace])
    (h : ∀ r, room = r + 2 → Settles (parsePrimary (productions r)) p fits fun e q =>
      q.At (c :: rest) ∧ Evaluates room e v) :
    Settles (productions room).expr p (2 ≤ room ∧ fits) fun e q =>
      q.At (c :: rest) ∧ Evaluates room e v :=
  settles_expr_primary (not_unaryOp_of_opening hopening) h fun _ _ hq => hq.1.not_continues hc

theorem reads_brackets {vs : List Value} {t : Bytes} (hready : ∀ rest, Ready (t ++ ch ']' :: rest))
    (hlist : ∀ room {p : Parser Lexer} rest, p.At (t ++ ch ']' :: rest) →
      Settles (parseElementList (productions room).expr) p (elementsFit room vs = true) fun es q =>
        q.At (ch ']' :: rest) ∧ EvaluatesAll room es vs) :
    Reads (ch '[' :: (t ++ [ch ']'])) (.value (.array vs)) := by
  intro room p c rest hc hp
  have htext : ch '[' :: (t ++ [ch ']']) ++ c :: rest = ch '[' :: (t ++ ch ']' :: c :: rest) := by simp
  rw [htext] at hp
  have hopen : Scans (ch '[' :: (t ++ ch ']' :: c :: rest)) { kind := .kLBracket } _ :=
    scans_punctuator (by decide) rfl
  have hclose : Scans (ch ']' :: c :: rest) { kind := .kRBracket } _ :=
    scans_punctuator (by decide) rfl
  have hkind : p.cur.kind = .kLBracket := hp.cur_kind hopen
  have hsettle : Settles (productions room).expr p
      (2 ≤ room ∧ elementsFit (room - 2) vs = true) fun e q =>
        q.At (c :: rest) ∧ Evaluates room e (.array vs) := by
    refine settles_aggregate hc (by rw [hkind]; decide) fun room' hroom => ?_
    have hroom : room - 2 = room' := by omega
    rw [hroom]
    refine Settles.congr ?_ (parsePrimary_of_bracket hkind)
    rcases hp.expect hopen (hready _) rfl "'['" with ⟨p₁, hexpect, hp₁⟩
    apply Settles.step hexpect
    refine (hlist room' (c :: rest) hp₁).andThen fun es q hq => ?_
    rcases hq.1.expect hclose (ready_follows hc rest) rfl "']' to close array literal" with
      ⟨q', hexpect, hq'⟩
    apply Settles.step hexpect
    refine .of_ok rfl ⟨hq', fun env depth hdepth => ?_⟩
    rw [evaluate, requireDepth_ok hdepth (by omega), hq.2 env (depth + 1) (by omega)]
    rfl
  exact hsettle.iff (by simp [Value.fits])

theorem reads_emptyArray : Reads (ascii "[]") (.value (.array [])) := by
  have hclose : ∀ rest, Scans ([] ++ ch ']' :: rest) { kind := .kRBracket } rest :=
    fun _ => scans_punctuator (by decide) rfl
  refine reads_brackets (fun rest => ⟨_, _, hclose rest⟩) fun room p rest hp => ?_
  have hlist : parseElementList (productions room).expr p = .ok [] p := by
    simp [parseElementList, bind_run, hp.cur_kind (hclose rest)]
  refine (Settles.of_ok hlist ⟨hp, fun env depth _ => rfl⟩).iff ?_
  simp [elementsFit]

theorem reads_array {vs : List Value} {t : Bytes} (h : Spells (.elements vs) t)
    (ih : Reads t (.elements vs)) : Reads (ch '[' :: (t ++ [ch ']'])) (.value (.array vs)) := by
  refine reads_brackets (fun rest => ?_) fun room p rest hp => ?_
  · rcases h.scans_elements rest with ⟨tok, r, -, hfirst, -⟩
    exact ⟨_, _, hfirst⟩
  · rcases h.scans_elements rest with ⟨tok, r, htok, hfirst, hcount⟩
    have hne : p.cur.kind ≠ .kRBracket := by rwa [hp.cur_kind hfirst]
    have hlist : parseElementList (productions room).expr p =
        parseElements (productions room).expr p.fuel p := by
      simp [parseElementList, bind_run, hne]
    have hfuel : vs.length < p.fuel := hp.lt_fuel hfirst (Nat.le_succ_of_le hcount)
    exact (ih room p.fuel rest hfuel.le hp).congr hlist

/-! #### Elements -/

section Elements

variable {v : Value} {vs : List Value} {ws t us : Bytes}

/-- The last element, without a comma behind it. -/
theorem reads_last (hws : Blank ws) (ih : Reads t (.value v)) :
    Reads (ws ++ t) (.elements [v]) := by
  intro room fuel p rest hfuel hp
  obtain ⟨fuel, rfl⟩ := Nat.exists_eq_add_one_of_ne_zero (Nat.ne_zero_of_lt hfuel)
  rw [List.append_assoc] at hp
  have hclose : Scans (ch ']' :: rest) { kind := .kRBracket } rest :=
    scans_punctuator (by decide) rfl
  refine Settles.iff ((ih room rest (by decide) (hp.blank hws)).andThen fun e q hq => ?_)
    (by simp [elementsFit])
  have hcomma : q.cur.kind ≠ .kComma := by rw [hq.1.cur_kind hclose]; decide
  apply Settles.step (accept_of_ne hcomma)
  refine .of_ok rfl ⟨hq.1, fun env depth hdepth => ?_⟩
  rw [evaluateElements, hq.2 env depth hdepth]
  rfl

theorem reads_lastComma (hws : Blank ws) (ih : Reads t (.value v)) (hus : Blank us) :
    Reads (ws ++ (t ++ ch ',' :: us)) (.elements [v]) := by
  intro room fuel p rest hfuel hp
  obtain ⟨fuel, rfl⟩ := Nat.exists_eq_add_one_of_ne_zero (Nat.ne_zero_of_lt hfuel)
  simp only [List.append_assoc, List.cons_append] at hp
  have hcomma : Scans (ch ',' :: (us ++ ch ']' :: rest)) { kind := .kComma } _ :=
    scans_punctuator (by decide) rfl
  have hclose : Scans (us ++ ch ']' :: rest) { kind := .kRBracket } rest :=
    (scans_punctuator (by decide) rfl).blank hus
  have hfirst := ih room (us ++ ch ']' :: rest) (by decide) (hp.blank hws)
  refine Settles.iff (hfirst.andThen fun e q hq => ?_) (by simp [elementsFit])
  rcases hq.1.take hcomma ⟨_, _, hclose⟩ with ⟨q', htake, hq'⟩
  apply Settles.step (accept_of_eq (hq.1.cur_kind hcomma) htake)
  have hkind : q'.cur.kind = .kRBracket := hq'.cur_kind hclose
  apply Settles.step (check_run _ q')
  simp only [hkind, decide_true, if_true]
  refine .of_ok rfl ⟨hq'.blank hus, fun env depth hdepth => ?_⟩
  rw [evaluateElements, hq.2 env depth hdepth]
  rfl

theorem reads_element (hws : Blank ws) (ih : Reads t (.value v)) (hs : Spells (.elements vs) us)
    (ihs : Reads us (.elements vs)) : Reads (ws ++ (t ++ ch ',' :: us)) (.elements (v :: vs)) := by
  intro room fuel p rest hfuel hp
  obtain ⟨fuel, rfl⟩ := Nat.exists_eq_add_one_of_ne_zero (Nat.ne_zero_of_lt hfuel)
  simp only [List.append_assoc, List.cons_append] at hp
  have hcomma : Scans (ch ',' :: (us ++ ch ']' :: rest)) { kind := .kComma } _ :=
    scans_punctuator (by decide) rfl
  rcases hs.scans_elements rest with ⟨tok, r, htok, hfirst, -⟩
  have hv := ih room (us ++ ch ']' :: rest) (by decide) (hp.blank hws)
  refine Settles.iff (hv.bind fun e q hq => ?_) (by rw [elementsFit, Bool.and_eq_true])
  rcases hq.1.take hcomma ⟨_, _, hfirst⟩ with ⟨q', htake, hq'⟩
  apply Settles.step (accept_of_eq (hq.1.cur_kind hcomma) htake)
  have hne : q'.cur.kind ≠ .kRBracket := by rwa [hq'.cur_kind hfirst]
  apply Settles.step (check_run _ q')
  simp only [hne, decide_false, Bool.false_eq_true, if_false]
  refine (ihs room fuel rest (by simpa using hfuel) hq').map fun es q'' hq'' => ⟨hq''.1, ?_⟩
  intro env depth hdepth
  rw [evaluateElements, hq.2 env depth hdepth, hq''.2 env depth hdepth]
  rfl

end Elements

/-! #### Members -/

section Fields

variable {key : Bytes} {v : Value} {fields : List (Bytes × Value)} {ws t us : Bytes}

theorem reads_noFields (hws : Blank ws) : Reads ws (.fields []) := by
  intro room offset fuel p rest hfuel hp
  obtain ⟨fuel, rfl⟩ := Nat.exists_eq_add_one_of_ne_zero (Nat.ne_zero_of_lt hfuel)
  have hclose : Scans (ch '}' :: rest) { kind := .kRBrace } rest :=
    scans_punctuator (by decide) rfl
  have hp := hp.blank hws
  have hrun : parseFields (productions room).expr offset (fuel + 1) p = .ok [] p := by
    simp [parseFields, bind_run, hp.cur_kind hclose]
  exact (Settles.of_ok hrun ⟨hp, fun env depth _ => rfl⟩).iff (by simp [fieldsFit])

theorem reads_field (hws : Blank ws) (hkey : IsName key) (h : Spells (.value v) t)
    (ih : Reads t (.value v)) (hs : Spells (.fields fields) us) (ihs : Reads us (.fields fields)) :
    Reads (ws ++ (key ++ (ascii " = " ++ (t ++ ch ';' :: us)))) (.fields ((key, v) :: fields)) := by
  intro room offset fuel p rest hfuel hp
  obtain ⟨fuel, rfl⟩ := Nat.exists_eq_add_one_of_ne_zero (Nat.ne_zero_of_lt hfuel)
  simp only [List.append_assoc, List.cons_append] at hp
  have hp := hp.blank hws
  have hname := scans_name hkey (stops_space (ascii "= " ++ (t ++ ch ';' :: (us ++ ch '}' :: rest))))
  have hassign := scans_assign (t ++ ch ';' :: (us ++ ch '}' :: rest))
  rcases h.scans_value (c := ch ';') (by decide) (us ++ ch '}' :: rest) with ⟨tok, r, -, hfirst⟩
  have hsemi : Scans (ch ';' :: (us ++ ch '}' :: rest)) { kind := .kSemicolon } _ :=
    scans_punctuator (by decide) rfl
  rcases hs.scans_fields rest with ⟨tok', r', hnext, -⟩
  have hkind : p.cur.kind = .kIdent := hp.cur_kind hname
  have htext : p.cur.text = key := hp.cur_text hname
  refine Settles.congr ?_ (parseFields_of_member (by rw [hkind]; decide) (by rw [hkind]; decide))
  apply Settles.step (accept_of_ne (by rw [hkind]; decide))
  rcases hp.expect hname ⟨_, _, hassign⟩ rfl "key identifier in object literal" with
    ⟨p₁, hexpect, hp₁⟩
  apply Settles.step hexpect
  rcases hp₁.expect hassign ⟨_, _, hfirst.blank blank_space⟩ rfl "'=' after object key" with
    ⟨p₂, hexpect, hp₂⟩
  apply Settles.step hexpect
  have hv := ih room (us ++ ch '}' :: rest) (by decide) (hp₂.blank blank_space)
  refine Settles.iff (hv.bind fun e q hq => ?_) (by rw [fieldsFit, Bool.and_eq_true])
  rcases hq.1.expect hsemi ⟨_, _, hnext⟩ rfl "';' after object field" with ⟨q', hexpect, hq'⟩
  apply Settles.step hexpect
  refine (ihs room offset fuel rest (by simpa using hfuel) hq').map fun es q'' hq'' => ⟨hq''.1, ?_⟩
  intro env depth hdepth
  rw [htext, evaluateFields, hq.2 env depth hdepth, hq''.2 env depth hdepth]
  rfl

theorem reads_object (h : Spells (.fields fields) t) (ih : Reads t (.fields fields)) :
    Reads (ch '{' :: (t ++ [ch '}'])) (.value (.object fields)) := by
  intro room p c rest hc hp
  have htext : ch '{' :: (t ++ [ch '}']) ++ c :: rest = ch '{' :: (t ++ ch '}' :: c :: rest) := by simp
  rw [htext] at hp
  have hopen : Scans (ch '{' :: (t ++ ch '}' :: c :: rest)) { kind := .kLBrace } _ :=
    scans_punctuator (by decide) rfl
  have hclose : Scans (ch '}' :: c :: rest) { kind := .kRBrace } _ :=
    scans_punctuator (by decide) rfl
  rcases h.scans_fields (c :: rest) with ⟨tok, r, hfirst, hcount⟩
  have hkind : p.cur.kind = .kLBrace := hp.cur_kind hopen
  have hsettle : Settles (productions room).expr p
      (2 ≤ room ∧ fieldsFit (room - 2) fields = true) fun e q =>
        q.At (c :: rest) ∧ Evaluates room e (.object fields) := by
    refine settles_aggregate hc (by rw [hkind]; decide) fun room' hroom => ?_
    have hroom : room - 2 = room' := by omega
    rw [hroom]
    refine Settles.congr ?_ (parsePrimary_of_brace hkind)
    rcases hp.expect hopen ⟨_, _, hfirst⟩ rfl "'\x7b'" with ⟨p₁, hexpect, hp₁⟩
    apply Settles.step hexpect
    have hfuel : fields.length < p₁.fuel := hp₁.lt_fuel hfirst (Nat.le_succ_of_le hcount)
    apply Settles.step (get_run p₁)
    refine (ih room' _ p₁.fuel (c :: rest) hfuel hp₁).andThen fun es q hq => ?_
    rcases hq.1.expect hclose (ready_follows hc rest) rfl "'\x7d' to close object literal" with
      ⟨q', hexpect, hq'⟩
    apply Settles.step hexpect
    refine .of_ok rfl ⟨hq', fun env depth hdepth => ?_⟩
    rw [evaluate, requireDepth_ok hdepth (by omega), hq.2 env (depth + 1) (by omega)]
    rfl
  exact hsettle.iff (by simp [Value.fits])

end Fields

end Bytewright.Cfgscript
