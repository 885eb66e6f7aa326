import Bytewright.Model.Cfgscript.Query
import Bytewright.Verification.Cfgscript.Scanning
import Mathlib.Data.List.Forall2
import Mathlib.Data.List.TakeWhile

/-! # The grammar of a path

The scanner of a path takes dots where the grammar has none, and does without some that the grammar
asks for. What it takes, it splits into the segments that are there. -/

namespace Bytewright.Cfgscript

open Bytewright.Common Bytewright.Library

/-! ### The longest word -/

section Words

variable {p : UInt8 → Bool} {word word' rest rest' : Bytes}

theorem span_stops (hword : ∀ c ∈ word, p c = true) (hrest : Stops p rest) :
    (word ++ rest).takeWhile p = word ∧ (word ++ rest).dropWhile p = rest := by
  rw [List.takeWhile_append_of_pos hword, List.dropWhile_append_of_pos hword]
  cases rest with
  | nil => simp
  | cons c rest =>
      have hc : p c = false := hrest c rfl
      simp [hc]

theorem stops_dropWhile (p : UInt8 → Bool) (text : Bytes) : Stops p (text.dropWhile p) := by
  induction text with
  | nil => simp [Stops]
  | cons c text ih =>
      cases hc : p c with
      | true => simpa [List.dropWhile_cons, hc] using ih
      | false => simp [Stops, hc]

theorem span_unique (hword : ∀ c ∈ word, p c = true) (hrest : Stops p rest)
    (hword' : ∀ c ∈ word', p c = true) (hrest' : Stops p rest') (h : word ++ rest = word' ++ rest') :
    word = word' ∧ rest = rest' := by
  have hleft := span_stops hword hrest
  have hright := span_stops hword' hrest'
  rw [h] at hleft
  exact ⟨hleft.1.symm.trans hright.1, hleft.2.symm.trans hright.2⟩

end Words

theorem indexValue_eq (digits : Bytes) : indexValue digits = UInt64.ofNat (decimalValue digits) :=
  word_numeralValue 10 (fun b => b.toNat - 48) digits

/-! ### Segments -/

/-- What the dots and brackets of a path separate. -/
inductive Segment where
  | name (name : Bytes)
  | index (digits : Bytes)
  deriving DecidableEq, Repr

namespace Segment

def isName : Segment → Bool
  | name _ => true
  | index _ => false

def WellFormed : Segment → Prop
  | name word => word ≠ [] ∧ ∀ c ∈ word, isNameByte c = true
  | index digits => digits ≠ [] ∧ ∀ c ∈ digits, isDigit c = true

/-- The segment without the dot in front of it. -/
def body : Segment → Bytes
  | name word => word
  | index digits => ch '[' :: (digits ++ [ch ']'])

/-- The segment as it stands behind another one. -/
def text (s : Segment) : Bytes := if s.isName then ch '.' :: s.body else s.body

/-- The step that the query makes of the segment. -/
def step : Segment → Step
  | name word => .name word
  | index digits => .index (indexValue digits)

end Segment

/-- The step says what the segment says. -/
def Step.Says : Step → Segment → Prop
  | .name word, .name word' => word = word'
  | .index i, .index digits => i.toNat = decimalValue digits
  | _, _ => False

/-- The grammar: nothing, or a name and behind it names after dots and indices in brackets. -/
inductive IsPath : Bytes → List Segment → Prop
  | empty : IsPath [] []
  | steps {word : Bytes} {segments : List Segment} (hword : (Segment.name word).WellFormed)
      (h : ∀ s ∈ segments, s.WellFormed) :
      IsPath (word ++ segments.flatMap Segment.text) (.name word :: segments)

/-- The scanner splits just the paths of the grammar, into what they say. -/
structure ReadsGrammar (path : Bytes) : Prop where
  accepts : (tokenize path).isSome = true ↔ ∃ segments, IsPath path segments
  steps {segments : List Segment} {steps : List Step} (h : IsPath path segments)
    (hsteps : tokenize path = some steps) : List.Forall₂ Step.Says steps segments
  rejects (h : ¬ ∃ segments, IsPath path segments) (doc : Document) : query doc path = none

/-! ### What the scanner takes -/

/-- A segment, and whether a dot is in front of it. -/
structure Piece where
  dotted : Bool
  segment : Segment
  deriving DecidableEq, Repr

namespace Piece

def text (p : Piece) : Bytes := if p.dotted then ch '.' :: p.segment.body else p.segment.body

/-- The piece begins a path. -/
def Opens (p : Piece) : Prop := p.dotted = false ∧ p.segment.isName = true

/-- The piece is one of the grammar, and its index is one of a `std::size_t`. -/
def Plain (p : Piece) : Prop :=
  p.dotted = p.segment.isName ∧ ∀ digits, p.segment = .index digits → decimalValue digits < 2 ^ 64

end Piece

def piecesText (pieces : List Piece) : Bytes := pieces.flatMap Piece.text

/-- Pieces in which every name is as long as it can be. -/
inductive Pieces : List Piece → Prop
  | nil : Pieces []
  | cons {p : Piece} {pieces : List Piece} (h : p.segment.WellFormed)
      (hstops : p.segment.isName = true → Stops isNameByte (piecesText pieces))
      (hrest : Pieces pieces) : Pieces (p :: pieces)

/-- What the scanner takes for a path: a name, and behind it names and indices with dots or not. -/
structure Loose (pieces : List Piece) : Prop where
  wellFormed : Pieces pieces
  opens : ∀ p ∈ pieces.head?, p.Opens

/-! ### One round of the scanner -/

/-- A round behind the dot, or without one. -/
def scanSegment (path : Bytes) : Option (Step × Bytes) :=
  if path.head? = some (ch '[') then tokenizeIndex path.tail
  else if path.takeWhile isNameByte = [] then none
  else some (.name (path.takeWhile isNameByte), path.dropWhile isNameByte)

section Rounds

variable {path rest : Bytes} {step : Step} {s : Segment} {p : Piece}

theorem isNameByte_iff (c : UInt8) : isNameByte c = true ↔ c ≠ ch '.' ∧ c ≠ ch '[' := by
  simp [isNameByte]

theorem Segment.WellFormed.head_name {word : Bytes} (h : (Segment.name word).WellFormed) :
    ∃ c cs, word = c :: cs ∧ c ≠ ch '.' ∧ c ≠ ch '[' := by
  rcases List.exists_cons_of_ne_nil h.1 with ⟨c, cs, rfl⟩
  exact ⟨c, cs, rfl, (isNameByte_iff c).mp (h.2 c List.mem_cons_self)⟩

/-- No segment begins with a dot. -/
theorem Segment.WellFormed.head_body (h : s.WellFormed) :
    ∃ c cs, s.body = c :: cs ∧ c ≠ ch '.' ∧ (c = ch '[' ↔ s.isName = false) := by
  cases s with
  | name word =>
      rcases h.head_name with ⟨c, cs, rfl, hdot, hbracket⟩
      exact ⟨c, cs, rfl, hdot, by simp [isName, hbracket]⟩
  | index digits => exact ⟨_, _, rfl, by decide, by simp [isName]⟩

theorem tokenizeIndex_eq_some_iff : tokenizeIndex path = some (step, rest) ↔
    ∃ digits, (Segment.index digits).WellFormed ∧ path = digits ++ ch ']' :: rest ∧
      step = .index (indexValue digits) := by
  constructor
  · intro h
    have hsplit := List.takeWhile_append_dropWhile (p := isDigit) (l := path)
    have hdigits : ∀ c ∈ path.takeWhile isDigit, isDigit c = true := fun c hc =>
      List.mem_takeWhile_imp hc
    simp only [tokenizeIndex] at h
    split at h
    · cases h
    · next c rest' hrest =>
      split at h
      · cases h
      · next hcond =>
        simp only [not_or, Classical.not_not] at hcond
        cases h
        rw [hrest, hcond.2] at hsplit
        exact ⟨_, ⟨hcond.1, hdigits⟩, hsplit.symm, rfl⟩
  · rintro ⟨digits, ⟨hne, hdigits⟩, rfl, rfl⟩
    have hclose : Stops isDigit (ch ']' :: rest) := by
      have hc : isDigit (ch ']') = false := by decide
      simpa [Stops] using hc
    rcases span_stops hdigits hclose with ⟨htake, hdrop⟩
    simp [tokenizeIndex, htake, hdrop, hne]

theorem scanSegment_eq_some_iff : scanSegment path = some (step, rest) ↔
    ∃ s : Segment, s.WellFormed ∧ path = s.body ++ rest ∧ step = s.step ∧
      (s.isName = true → Stops isNameByte rest) := by
  constructor
  · intro h
    rw [scanSegment] at h
    split at h
    · next hbracket =>
      rcases tokenizeIndex_eq_some_iff.mp h with ⟨digits, hwf, htail, rfl⟩
      refine ⟨.index digits, hwf, ?_, rfl, nofun⟩
      cases path with
      | nil => cases hbracket
      | cons c path =>
          cases hbracket
          simp only [List.tail_cons] at htail
          simp [htail, Segment.body]
    · split at h
      · cases h
      · next hne =>
        cases h
        refine ⟨.name _, ⟨hne, fun c hc => List.mem_takeWhile_imp hc⟩, ?_, rfl,
          fun _ => stops_dropWhile isNameByte path⟩
        exact List.takeWhile_append_dropWhile.symm
  · rintro ⟨s, hwf, rfl, rfl, hstops⟩
    cases s with
    | index digits =>
        have hindex : tokenizeIndex (digits ++ ch ']' :: rest) =
            some (.index (indexValue digits), rest) :=
          tokenizeIndex_eq_some_iff.mpr ⟨digits, hwf, rfl, rfl⟩
        simp [scanSegment, Segment.body, Segment.step, hindex]
    | name word =>
        rcases hwf.head_name with ⟨c, cs, hword, hdot, hbracket⟩
        rcases span_stops hwf.2 (hstops rfl) with ⟨htake, hdrop⟩
        have hhead : (word ++ rest).head? ≠ some (ch '[') := by simp [hword, hbracket]
        simp only [Segment.body, Segment.step, scanSegment, if_neg hhead, htake, hdrop, if_neg hwf.1]

theorem tokenizeStep_dot (first : Bool) (path : Bytes) :
    tokenizeStep first (ch '.' :: path) = if first then none else scanSegment path := by
  cases first with
  | true => simp [tokenizeStep]
  | false => cases path <;> simp [tokenizeStep, scanSegment]

theorem tokenizeStep_plain (first : Bool) (h : path.head? ≠ some (ch '.')) :
    tokenizeStep first path =
      if first = true ∧ path.head? = some (ch '[') then none else scanSegment path := by
  have hne : ch '[' ≠ ch '.' := by decide
  by_cases hbracket : path.head? = some (ch '[')
  · cases first <;> simp [tokenizeStep, scanSegment, hbracket, hne]
  · simp [tokenizeStep, scanSegment, h, hbracket]

/-- A round takes a piece, in which a name goes on to its end. -/
theorem tokenizeStep_eq_some_iff (first : Bool) : tokenizeStep first path = some (step, rest) ↔
    ∃ p : Piece, p.segment.WellFormed ∧ path = p.text ++ rest ∧ step = p.segment.step ∧
      (p.segment.isName = true → Stops isNameByte rest) ∧ (first = true → p.Opens) := by
  constructor
  · intro h
    by_cases hdot : path.head? = some (ch '.')
    · cases path with
      | nil => cases hdot
      | cons c path =>
          cases hdot
          rw [tokenizeStep_dot] at h
          cases first with
          | true => cases h
          | false =>
              rcases scanSegment_eq_some_iff.mp h with ⟨s, hwf, rfl, hstep, hstops⟩
              exact ⟨⟨true, s⟩, hwf, rfl, hstep, hstops, nofun⟩
    · rw [tokenizeStep_plain first hdot] at h
      split at h
      · cases h
      · next hfirst =>
        rcases scanSegment_eq_some_iff.mp h with ⟨s, hwf, rfl, hstep, hstops⟩
        refine ⟨⟨false, s⟩, hwf, rfl, hstep, hstops, fun hopens => ⟨rfl, ?_⟩⟩
        rcases hwf.head_body with ⟨c, cs, hbody, -, hbracket⟩
        have hc : c ≠ ch '[' := by simpa [hopens, hbody] using hfirst
        simpa [hc] using hbracket
  · rintro ⟨⟨dotted, s⟩, hwf, rfl, rfl, hstops, hopens⟩
    have hscan : scanSegment (s.body ++ rest) = some (s.step, rest) :=
      scanSegment_eq_some_iff.mpr ⟨s, hwf, rfl, rfl, hstops⟩
    rcases hwf.head_body with ⟨c, cs, hbody, hdot, hbracket⟩
    cases dotted with
    | true =>
        have hfirst : first ≠ true := fun hfirst => nomatch (hopens hfirst).1
        simpa [Piece.text, tokenizeStep_dot, hfirst] using hscan
    | false =>
        have hhead : (s.body ++ rest).head? = some c := by simp [hbody]
        have hfirst : ¬ (first = true ∧ c = ch '[') := by
          rintro ⟨hfirst, hc⟩
          cases (hopens hfirst).2.symm.trans (hbracket.mp hc)
        have hplain := tokenizeStep_plain first (show (s.body ++ rest).head? ≠ some (ch '.') by
          simpa [hhead] using hdot)
        simpa [Piece.text, hplain, hhead, hfirst] using hscan

end Rounds

/-! ### All rounds -/

@[simp] theorem piecesText_cons (p : Piece) (pieces : List Piece) :
    piecesText (p :: pieces) = p.text ++ piecesText pieces := rfl

theorem Piece.text_ne_nil {p : Piece} (h : p.segment.WellFormed) : p.text ≠ [] := by
  rcases h.head_body with ⟨c, cs, hbody, -⟩
  cases hdotted : p.dotted <;> simp [text, hdotted, hbody]

theorem tokenizeLoop_sound : ∀ {fuel : Nat} {first : Bool} {path : Bytes} {steps : List Step},
    tokenizeLoop fuel first path = some steps → ∃ pieces, Pieces pieces ∧ path = piecesText pieces ∧
      steps = pieces.map (·.segment.step) ∧ (first = true → ∀ p ∈ pieces.head?, p.Opens) := by
  intro fuel
  induction fuel with
  | zero => nofun
  | succ fuel ih =>
      intro first path steps h
      rw [tokenizeLoop] at h
      split at h
      · next hpath =>
        cases h
        exact ⟨[], .nil, hpath, rfl, nofun⟩
      · rcases Option.bind_eq_some_iff.mp h with ⟨⟨step, rest⟩, hstep, h⟩
        rcases Option.bind_eq_some_iff.mp h with ⟨steps', hloop, h⟩
        cases h
        rcases (tokenizeStep_eq_some_iff first).mp hstep with ⟨p, hwf, rfl, rfl, hstops, hopens⟩
        rcases ih hloop with ⟨pieces, hpieces, rfl, rfl, -⟩
        exact ⟨p :: pieces, .cons hwf hstops hpieces, rfl, rfl, fun hfirst => by simpa using hopens hfirst⟩

theorem tokenizeLoop_complete {pieces : List Piece} (h : Pieces pieces) :
    ∀ {fuel : Nat} {first : Bool}, (piecesText pieces).length < fuel →
      (first = true → ∀ p ∈ pieces.head?, p.Opens) →
      tokenizeLoop fuel first (piecesText pieces) = some (pieces.map (·.segment.step)) := by
  induction h with
  | nil =>
      intro fuel first hfuel hopens
      obtain ⟨fuel, rfl⟩ := Nat.exists_eq_add_one_of_ne_zero (Nat.ne_zero_of_lt hfuel)
      rfl
  | @cons p pieces hwf hstops _ ih =>
      intro fuel first hfuel hopens
      obtain ⟨fuel, rfl⟩ := Nat.exists_eq_add_one_of_ne_zero (Nat.ne_zero_of_lt hfuel)
      have hpos := List.length_pos_iff.mpr (Piece.text_ne_nil hwf)
      have hstep : tokenizeStep first (p.text ++ piecesText pieces) =
          some (p.segment.step, piecesText pieces) :=
        (tokenizeStep_eq_some_iff first).mpr
          ⟨p, hwf, rfl, rfl, hstops, fun hfirst => hopens hfirst p rfl⟩
      have hloop := @ih fuel false (by
        rw [piecesText_cons, List.length_append] at hfuel
        omega) nofun
      rw [piecesText_cons, tokenizeLoop, if_neg (by simp [Piece.text_ne_nil hwf]), hstep]
      simp [hloop]

/-- What the scanner accepts, and the steps it makes of it. -/
theorem tokenize_eq_some_iff {path : Bytes} {steps : List Step} : tokenize path = some steps ↔
    ∃ pieces, Loose pieces ∧ path = piecesText pieces ∧ steps = pieces.map (·.segment.step) := by
  constructor
  · intro h
    rcases tokenizeLoop_sound h with ⟨pieces, hpieces, hpath, hsteps, hopens⟩
    exact ⟨pieces, ⟨hpieces, hopens rfl⟩, hpath, hsteps⟩
  · rintro ⟨pieces, h, rfl, rfl⟩
    exact tokenizeLoop_complete h.wellFormed (Nat.lt_succ_self _) fun _ => h.opens

/-! ### A path has one reading -/

theorem Segment.unique {s s' : Segment} {rest rest' : Bytes} (h : s.WellFormed) (h' : s'.WellFormed)
    (hstops : s.isName = true → Stops isNameByte rest)
    (hstops' : s'.isName = true → Stops isNameByte rest') (heq : s.body ++ rest = s'.body ++ rest') :
    s = s' ∧ rest = rest' := by
  have hclose : ∀ tail, Stops isDigit (ch ']' :: tail) := fun tail => by
    have hc : isDigit (ch ']') = false := by decide
    simpa [Stops] using hc
  cases s with
  | name word =>
      cases s' with
      | name word' =>
          rcases span_unique h.2 (hstops rfl) h'.2 (hstops' rfl) heq with ⟨rfl, rfl⟩
          exact ⟨rfl, rfl⟩
      | index digits' =>
          rcases h.head_name with ⟨c, cs, rfl, -, hbracket⟩
          exact absurd (List.cons.inj heq).1 hbracket
  | index digits =>
      cases s' with
      | name word' =>
          rcases h'.head_name with ⟨c, cs, rfl, -, hbracket⟩
          exact absurd (List.cons.inj heq).1.symm hbracket
      | index digits' =>
          have htail : digits ++ ch ']' :: rest = digits' ++ ch ']' :: rest' := by
            simpa [body] using heq
          rcases span_unique h.2 (hclose rest) h'.2 (hclose rest') htail with ⟨rfl, hrest⟩
          exact ⟨rfl, (List.cons.inj hrest).2⟩

theorem Piece.unique {p p' : Piece} {rest rest' : Bytes} (h : p.segment.WellFormed)
    (h' : p'.segment.WellFormed) (hstops : p.segment.isName = true → Stops isNameByte rest)
    (hstops' : p'.segment.isName = true → Stops isNameByte rest') (heq : p.text ++ rest = p'.text ++ rest') :
    p = p' ∧ rest = rest' := by
  rcases p with ⟨dotted, s⟩
  rcases p' with ⟨dotted', s'⟩
  have hdotted : dotted = dotted' ∧ s.body ++ rest = s'.body ++ rest' := by
    rcases h.head_body with ⟨c, cs, hbody, hdot, -⟩
    rcases h'.head_body with ⟨c', cs', hbody', hdot', -⟩
    cases dotted <;> cases dotted' <;>
      simp_all [text]
  rcases hdotted with ⟨rfl, hbody⟩
  rcases Segment.unique h h' hstops hstops' hbody with ⟨rfl, rfl⟩
  exact ⟨rfl, rfl⟩

theorem Pieces.unique {pieces pieces' : List Piece} (h : Pieces pieces) (h' : Pieces pieces')
    (heq : piecesText pieces = piecesText pieces') : pieces = pieces' := by
  induction h generalizing pieces' with
  | nil =>
      cases h' with
      | nil => rfl
      | cons hwf => exact absurd (List.append_eq_nil_iff.mp heq.symm).1 (Piece.text_ne_nil hwf)
  | cons hwf hstops _ ih =>
      cases h' with
      | nil => exact absurd (List.append_eq_nil_iff.mp heq).1 (Piece.text_ne_nil hwf)
      | cons hwf' hstops' hrest' =>
          rcases Piece.unique hwf hwf' hstops hstops' heq with ⟨rfl, hrest⟩
          rw [ih hrest' hrest]

/-! ### The paths of the grammar -/

/-- A segment behind another, as the grammar has it. -/
def Segment.piece (s : Segment) : Piece := ⟨s.isName, s⟩

theorem piecesText_piece (segments : List Segment) :
    piecesText (segments.map Segment.piece) = segments.flatMap Segment.text := by
  rw [piecesText, List.flatMap_map]
  rfl

theorem stops_segments {segments : List Segment} (h : ∀ s ∈ segments, s.WellFormed) :
    Stops isNameByte (segments.flatMap Segment.text) := by
  cases segments with
  | nil => simp [Stops]
  | cons s segments =>
      cases s with
      | name word =>
          have hdot : isNameByte (ch '.') = false := by decide
          simpa [Stops, Segment.text, Segment.isName] using hdot
      | index digits =>
          have hbracket : isNameByte (ch '[') = false := by decide
          simpa [Stops, Segment.text, Segment.isName, Segment.body] using hbracket

theorem pieces_segments {segments : List Segment} (h : ∀ s ∈ segments, s.WellFormed) :
    Pieces (segments.map Segment.piece) := by
  induction segments with
  | nil => exact .nil
  | cons s segments ih =>
      rcases List.forall_mem_cons.mp h with ⟨hs, hsegments⟩
      refine .cons hs (fun _ => ?_) (ih hsegments)
      rw [piecesText_piece]
      exact stops_segments hsegments

/-- The pieces of a path: its first segment has no dot. -/
def pathPieces : List Segment → List Piece
  | [] => []
  | s :: segments => ⟨false, s⟩ :: segments.map Segment.piece

theorem pathPieces_segment (segments : List Segment) :
    (pathPieces segments).map (·.segment) = segments := by
  cases segments <;> simp [pathPieces, Segment.piece, Function.comp_def]

theorem IsPath.loose {path : Bytes} {segments : List Segment} (h : IsPath path segments) :
    Loose (pathPieces segments) ∧ path = piecesText (pathPieces segments) := by
  cases h with
  | empty => exact ⟨⟨.nil, nofun⟩, rfl⟩
  | steps hword h =>
      have hstops := stops_segments h
      rw [← piecesText_piece] at hstops ⊢
      refine ⟨⟨.cons hword (fun _ => hstops) (pieces_segments h), ?_⟩, rfl⟩
      simp [pathPieces, Piece.Opens, Segment.isName]

theorem Pieces.mem {pieces : List Piece} (h : Pieces pieces) :
    ∀ p ∈ pieces, p.segment.WellFormed := by
  induction h with
  | nil => nofun
  | cons hwf _ _ ih => exact List.forall_mem_cons.mpr ⟨hwf, ih⟩

/-- With no dot too many and none too few, what the scanner takes is a path. -/
theorem Loose.isPath {pieces : List Piece} (h : Loose pieces)
    (hdots : ∀ p ∈ pieces.tail, p.dotted = p.segment.isName) :
    IsPath (piecesText pieces) (pieces.map (·.segment)) := by
  rcases h with ⟨hpieces, hopens⟩
  cases hpieces with
  | nil => exact .empty
  | @cons p pieces hwf _ hrest =>
      have hsegments : pieces = (pieces.map (·.segment)).map Segment.piece := by
        have hpiece : ∀ q ∈ pieces, q = q.segment.piece := fun q hq => by
          rw [Segment.piece, ← hdots q hq]
        rw [List.map_map]
        exact (List.map_id pieces).symm.trans (List.map_congr_left hpiece)
      have hwords : ∀ s ∈ pieces.map (·.segment), s.WellFormed := by
        simpa using hrest.mem
      rcases p with ⟨dotted, s⟩
      rcases hopens _ rfl with ⟨rfl, hname⟩
      cases s with
      | index digits => cases hname
      | name word =>
          have hpath := IsPath.steps hwf hwords
          rw [← piecesText_piece, ← hsegments] at hpath
          exact hpath

theorem says_step_iff (s : Segment) :
    s.step.Says s ↔ ∀ digits, s = .index digits → decimalValue digits < 2 ^ 64 := by
  cases s with
  | name word => simp [Segment.step, Step.Says]
  | index digits =>
      simp only [Segment.step, Step.Says, indexValue_eq, UInt64.toNat_ofNat']
      simp

/-- Every step of an accepted path says what its segment says, if no index is too large. -/
theorem says_steps_iff (segments : List Segment) :
    List.Forall₂ Step.Says (segments.map Segment.step) segments ↔
      ∀ digits, .index digits ∈ segments → decimalValue digits < 2 ^ 64 := by
  rw [List.forall₂_map_left_iff, List.forall₂_same]
  constructor
  · exact fun h digits hmem => (says_step_iff _).mp (h _ hmem) digits rfl
  · rintro h s hmem
    exact (says_step_iff s).mpr fun digits hs => h digits (hs ▸ hmem)

theorem tokenize_of_isPath {path : Bytes} {segments : List Segment} (h : IsPath path segments) :
    tokenize path = some (segments.map Segment.step) := by
  refine tokenize_eq_some_iff.mpr ⟨pathPieces segments, h.loose.1, h.loose.2, ?_⟩
  conv_lhs => rw [← pathPieces_segment segments]
  rw [List.map_map]
  rfl

/-- A string that is read by the grammar has only pieces of the grammar. -/
theorem ReadsGrammar.plain {path : Bytes} (h : ReadsGrammar path) {pieces : List Piece}
    (hpieces : Loose pieces) (hpath : path = piecesText pieces) : ∀ p ∈ pieces.tail, p.Plain := by
  have htokens := tokenize_eq_some_iff.mpr ⟨pieces, hpieces, hpath, rfl⟩
  rcases h.accepts.mp (Option.isSome_of_eq_some htokens) with ⟨segments, hsegments⟩
  rcases hsegments.loose with ⟨hloose, htext⟩
  have heq := hpieces.wellFormed.unique hloose.wellFormed (hpath.symm.trans htext)
  have hindices := (says_steps_iff segments).mp (h.steps hsegments (tokenize_of_isPath hsegments))
  subst heq
  cases segments with
  | nil => nofun
  | cons s segments =>
      intro p hp
      rcases List.mem_map.mp hp with ⟨t, ht, rfl⟩
      exact ⟨rfl, fun digits hdigits => hindices digits (List.mem_cons_of_mem _ (hdigits ▸ ht))⟩

/-- A string is read by the grammar unless the scanner takes it with a dot in front of a bracket, a
name directly behind one, or an index that no `std::size_t` holds. -/
theorem readsGrammar_iff (path : Bytes) : ReadsGrammar path ↔
    ∀ pieces, Loose pieces → path = piecesText pieces → ∀ p ∈ pieces.tail, p.Plain := by
  constructor
  · exact fun h pieces hpieces hpath => h.plain hpieces hpath
  · intro h
    have haccepts : (tokenize path).isSome = true ↔ ∃ segments, IsPath path segments := by
      constructor
      · intro hsome
        rcases Option.isSome_iff_exists.mp hsome with ⟨steps, hsteps⟩
        rcases tokenize_eq_some_iff.mp hsteps with ⟨pieces, hpieces, rfl, -⟩
        exact ⟨_, hpieces.isPath fun p hp => (h pieces hpieces rfl p hp).1⟩
      · rintro ⟨segments, hsegments⟩
        exact Option.isSome_of_eq_some (tokenize_of_isPath hsegments)
    constructor
    · exact haccepts
    · intro segments steps hsegments hsteps
      cases (tokenize_of_isPath hsegments).symm.trans hsteps
      refine (says_steps_iff segments).mpr fun digits hmem => ?_
      rcases hsegments.loose with ⟨hloose, htext⟩
      have hplain := h _ hloose htext
      cases hsegments with
      | empty => cases hmem
      | steps =>
          cases hmem with
          | tail _ hmem => exact (hplain _ (List.mem_map_of_mem hmem)).2 digits rfl
    · intro hno doc
      have hnone : tokenize path = none := by
        rwa [← haccepts, Bool.not_eq_true, Option.isSome_eq_false_iff, Option.isNone_iff_eq_none] at hno
      rw [query, hnone]

/-- Behind the name `a` the scanner takes any pieces that do not go on with a name byte. -/
theorem loose_a {pieces : List Piece} (h : Pieces pieces)
    (hstops : Stops isNameByte (piecesText pieces)) :
    Loose (⟨false, .name (ascii "a")⟩ :: pieces) :=
  ⟨.cons ⟨by decide +kernel, by decide +kernel⟩ (fun _ => hstops) h, by simp [Piece.Opens, Segment.isName]⟩

/-- A dot in front of a bracket, a name directly behind one, and an index too large by one. -/
theorem not_readsGrammar : ¬ ReadsGrammar (ascii "a.[0]") ∧ ¬ ReadsGrammar (ascii "a[0]b") ∧
    ¬ ReadsGrammar (ascii "a[18446744073709551616]") := by
  refine ⟨fun h => ?_, fun h => ?_, fun h => ?_⟩
  · have hpieces : Pieces [⟨true, .index (ascii "0")⟩] := .cons ⟨by decide +kernel, by decide +kernel⟩ nofun .nil
    have hplain := h.plain (loose_a hpieces (by decide +kernel)) (by decide +kernel) _ List.mem_cons_self
    exact absurd hplain.1 (by decide +kernel)
  · have hpieces : Pieces [⟨false, .index (ascii "0")⟩, ⟨false, .name (ascii "b")⟩] :=
      .cons ⟨by decide +kernel, by decide +kernel⟩ nofun (.cons ⟨by decide +kernel, by decide +kernel⟩ (fun _ => by decide +kernel) .nil)
    have hplain := h.plain (loose_a hpieces (by decide +kernel)) (by decide +kernel) ⟨false, .name (ascii "b")⟩ (by simp)
    exact absurd hplain.1 (by decide +kernel)
  · have hpieces : Pieces [⟨false, .index (ascii "18446744073709551616")⟩] :=
      .cons ⟨by decide +kernel, by decide +kernel⟩ nofun .nil
    have hplain := h.plain (loose_a hpieces (by decide +kernel)) (by decide +kernel) _ List.mem_cons_self
    exact absurd (hplain.2 _ rfl) (by decide +kernel)

end Bytewright.Cfgscript
