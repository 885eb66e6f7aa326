import Mathlib.Data.List.Nodup
import Bytewright.Library.Patch
import Bytewright.Model.Cfgscript.Diff

/-! # A diff as a patch

What the entries of a diff say about the two maps from paths to values, and what they do to the
first of them. -/

namespace Bytewright.Cfgscript

open Bytewright.Common Bytewright.Library

/-! ### The last value of a path -/

/-- The last value that is flattened to a path. -/
def lastValue (entries : List FlatEntry) (path : Bytes) : Option Bytes :=
  ((entries.filter fun e => e.path = path).map FlatEntry.value).getLast?

theorem lookup_indexEntries (entries : List FlatEntry) (path : Bytes) :
    (indexEntries entries).lookup path = lastValue entries path := by
  have hfold : ∀ index : PathIndex,
      (entries.foldl (fun index e => (e.path, e.value) :: index) index).lookup path =
        (lastValue entries path).or (index.lookup path) := by
    induction entries with
    | nil => exact fun index => rfl
    | cons e entries ih =>
        intro index
        rw [List.foldl_cons, ih, lastValue, lastValue, List.filter_cons]
        by_cases h : e.path = path
        · have hself : ((e.path, e.value) :: index).lookup path = some e.value := by
            rw [h, List.lookup_cons_self]
          rw [hself]
          cases (entries.filter fun e => e.path = path) <;> simp [h, List.getLast?_cons]
        · have hne : (path == e.path) = false := beq_eq_false_iff_ne.mpr (Ne.symm h)
          simp [h, hne, List.lookup_cons]
  rw [indexEntries, hfold]
  exact Option.or_none

theorem lastValue_eq_none {entries : List FlatEntry} {path : Bytes} :
    lastValue entries path = none ↔ ∀ e ∈ entries, e.path ≠ path := by
  simp [lastValue]

/-! ### Entries -/

namespace DiffEntry

/-- The value that the entry replaces, if there is one. -/
def before (d : DiffEntry) : Option Bytes :=
  match d.kind with
  | .kAdded => none
  | _ => some d.oldValue

/-- The value that the entry leaves, if there is one. -/
def after (d : DiffEntry) : Option Bytes :=
  match d.kind with
  | .kRemoved => none
  | _ => some d.newValue

/-- The two maps differ at the path of the entry, and it says what they have there. A side without a
value is blank. -/
structure Describes (d : DiffEntry) (old new : Bytes → Option Bytes) : Prop where
  before : d.before = old d.path
  after : d.after = new d.path
  differ : old d.path ≠ new d.path
  blank_old : d.kind = .kAdded → d.oldValue = []
  blank_new : d.kind = .kRemoved → d.newValue = []

/-- The entry for a path with these values, of which one at least is there. -/
def between (path : Bytes) (old new : Option Bytes) : DiffEntry where
  kind :=
    match old, new with
    | none, _ => .kAdded
    | some _, none => .kRemoved
    | some _, some _ => .kChanged
  path := path
  oldValue := old.getD []
  newValue := new.getD []

variable {old new : Bytes → Option Bytes} {path : Bytes} {d : DiffEntry}

theorem describes_between (h : old path ≠ new path) :
    (between path (old path) (new path)).Describes old new := by
  cases hold : old path with
  | none =>
      cases hnew : new path with
      | none => exact absurd (hold.trans hnew.symm) h
      | some value => exact ⟨hold.symm, hnew.symm, h, fun _ => rfl, nofun⟩
  | some value =>
      cases hnew : new path with
      | none => exact ⟨hold.symm, hnew.symm, h, nofun, fun _ => rfl⟩
      | some value' => exact ⟨hold.symm, hnew.symm, h, nofun, nofun⟩

/-- A path and the two maps leave one entry. -/
theorem Describes.eq_between (h : d.Describes old new) :
    d = between d.path (old d.path) (new d.path) := by
  rw [← h.before, ← h.after]
  obtain ⟨kind, path, oldValue, newValue⟩ := d
  cases kind with
  | kAdded =>
      obtain rfl : oldValue = [] := h.blank_old rfl
      rfl
  | kRemoved =>
      obtain rfl : newValue = [] := h.blank_new rfl
      rfl
  | kChanged => rfl

end DiffEntry

/-- The entry for a path that is gone. -/
def removedEntry (aIndex bIndex : PathIndex) (path : Bytes) : Option DiffEntry :=
  match bIndex.lookup path with
  | none => some { kind := .kRemoved, path, oldValue := (aIndex.lookup path).getD [] }
  | some _ => none

/-- The entry for a path that is new or has another value. -/
def changedEntry (aIndex bIndex : PathIndex) (path : Bytes) : Option DiffEntry :=
  let newValue := (bIndex.lookup path).getD []
  match aIndex.lookup path with
  | none => some { kind := .kAdded, path, newValue }
  | some oldValue =>
    if oldValue ≠ newValue then some { kind := .kChanged, path, oldValue, newValue } else none

/-- The paths of a flattened document, each where it first occurs. -/
def firstPaths (entries : List FlatEntry) : List Bytes := (entries.map FlatEntry.path).eraseDups

theorem removedKeys_eq (aIndex bIndex : PathIndex) (entries : List FlatEntry) :
    removedKeys aIndex bIndex [] entries = (firstPaths entries).filterMap (removedEntry aIndex bIndex) := by
  have hnil : ∀ seen, removedKeys aIndex bIndex seen [] = [] := fun _ => rfl
  have hseen : ∀ (seen : List Bytes) (e : FlatEntry) (es), e.path ∈ seen →
      removedKeys aIndex bIndex seen (e :: es) = removedKeys aIndex bIndex seen es :=
    fun seen e es he => by rw [removedKeys, if_pos he]
  have hfresh : ∀ (seen : List Bytes) (e : FlatEntry) (es), e.path ∉ seen →
      removedKeys aIndex bIndex seen (e :: es) =
        (removedEntry aIndex bIndex e.path).toList ++ removedKeys aIndex bIndex (e.path :: seen) es := by
    intro seen e es he
    rw [removedKeys, if_neg he, removedEntry]
    cases bIndex.lookup e.path <;> rfl
  simpa [firstPaths] using seenLoop_eq hnil hseen hfresh entries []

theorem changedKeys_eq (aIndex bIndex : PathIndex) (entries : List FlatEntry) :
    changedKeys aIndex bIndex [] entries = (firstPaths entries).filterMap (changedEntry aIndex bIndex) := by
  have hnil : ∀ seen, changedKeys aIndex bIndex seen [] = [] := fun _ => rfl
  have hseen : ∀ (seen : List Bytes) (e : FlatEntry) (es), e.path ∈ seen →
      changedKeys aIndex bIndex seen (e :: es) = changedKeys aIndex bIndex seen es :=
    fun seen e es he => by rw [changedKeys, if_pos he]
  have hfresh : ∀ (seen : List Bytes) (e : FlatEntry) (es), e.path ∉ seen →
      changedKeys aIndex bIndex seen (e :: es) =
        (changedEntry aIndex bIndex e.path).toList ++ changedKeys aIndex bIndex (e.path :: seen) es := by
    intro seen e es he
    rw [changedKeys, if_neg he, changedEntry]
    dsimp only
    cases aIndex.lookup e.path with
    | none => rfl
    | some oldValue =>
        dsimp only
        split
        · rfl
        · rfl
  simpa [firstPaths] using seenLoop_eq hnil hseen hfresh entries []

variable {a b : List FlatEntry} {path : Bytes} {d : DiffEntry}

theorem mem_firstPaths : path ∈ firstPaths a ↔ lastValue a path ≠ none := by
  rw [firstPaths, List.mem_eraseDups, List.mem_map, ne_eq, lastValue_eq_none]
  push Not
  rfl

theorem removedEntry_eq_some (hpath : lastValue a path ≠ none) :
    removedEntry (indexEntries a) (indexEntries b) path = some d ↔
      d.path = path ∧ d.kind = .kRemoved ∧ d.Describes (lastValue a) (lastValue b) := by
  obtain ⟨old, hold⟩ := Option.ne_none_iff_exists'.mp hpath
  rw [removedEntry, lookup_indexEntries, lookup_indexEntries, hold]
  cases hnew : lastValue b path with
  | none =>
      have hdescribes : (DiffEntry.between path (some old) none).Describes (lastValue a) (lastValue b) := by
        rw [← hold, ← hnew]
        exact DiffEntry.describes_between (by rwa [hnew])
      constructor
      · rintro ⟨⟩
        exact ⟨rfl, rfl, hdescribes⟩
      · rintro ⟨rfl, -, h⟩
        rw [h.eq_between, hold, hnew]
        rfl
  | some new =>
      refine ⟨nofun, ?_⟩
      rintro ⟨rfl, hkind, h⟩
      have hafter := h.after
      rw [DiffEntry.after, hkind, hnew] at hafter
      cases hafter

theorem changedEntry_eq_some (hpath : lastValue b path ≠ none) :
    changedEntry (indexEntries a) (indexEntries b) path = some d ↔
      d.path = path ∧ d.kind ≠ .kRemoved ∧ d.Describes (lastValue a) (lastValue b) := by
  obtain ⟨new, hnew⟩ := Option.ne_none_iff_exists'.mp hpath
  have hentry : changedEntry (indexEntries a) (indexEntries b) path =
      if lastValue a path = lastValue b path then none
      else some (.between path (lastValue a path) (lastValue b path)) := by
    rw [changedEntry, lookup_indexEntries, lookup_indexEntries, hnew]
    cases lastValue a path with
    | none => rfl
    | some old => by_cases hne : old = new <;> simp [hne, DiffEntry.between]
  rw [hentry]
  by_cases hdiffer : lastValue a path = lastValue b path
  · rw [if_pos hdiffer]
    refine ⟨nofun, ?_⟩
    rintro ⟨rfl, -, h⟩
    exact absurd hdiffer h.differ
  · rw [if_neg hdiffer]
    constructor
    · rintro ⟨⟩
      refine ⟨rfl, ?_, DiffEntry.describes_between hdiffer⟩
      rw [hnew]
      cases lastValue a path <;> exact nofun
    · rintro ⟨rfl, -, h⟩
      exact congrArg some h.eq_between.symm

/-! ### The two passes -/

/-- The entries for removals. -/
def removals (a b : List FlatEntry) : List DiffEntry :=
  (firstPaths a).filterMap (removedEntry (indexEntries a) (indexEntries b))

/-- The entries for additions and changes. -/
def changes (a b : List FlatEntry) : List DiffEntry :=
  (firstPaths b).filterMap (changedEntry (indexEntries a) (indexEntries b))

theorem diffEntries_eq (a b : List FlatEntry) : diffEntries a b = removals a b ++ changes a b := by
  rw [diffEntries, removedKeys_eq, changedKeys_eq]
  rfl

theorem mem_removals :
    d ∈ removals a b ↔ d.kind = .kRemoved ∧ d.Describes (lastValue a) (lastValue b) := by
  rw [removals, List.mem_filterMap]
  constructor
  · rintro ⟨path, hpath, hd⟩
    exact ((removedEntry_eq_some (mem_firstPaths.mp hpath)).mp hd).2
  · rintro ⟨hkind, h⟩
    have hpath : lastValue a d.path ≠ none := by
      rw [← h.before, DiffEntry.before, hkind]
      exact nofun
    exact ⟨d.path, mem_firstPaths.mpr hpath, (removedEntry_eq_some hpath).mpr ⟨rfl, hkind, h⟩⟩

theorem mem_changes :
    d ∈ changes a b ↔ d.kind ≠ .kRemoved ∧ d.Describes (lastValue a) (lastValue b) := by
  rw [changes, List.mem_filterMap]
  constructor
  · rintro ⟨path, hpath, hd⟩
    exact ((changedEntry_eq_some (mem_firstPaths.mp hpath)).mp hd).2
  · rintro ⟨hkind, h⟩
    have hpath : lastValue b d.path ≠ none := by
      rw [← h.after, DiffEntry.after]
      cases hd : d.kind with
      | kRemoved => exact absurd hd hkind
      | kAdded => exact nofun
      | kChanged => exact nofun
    exact ⟨d.path, mem_firstPaths.mpr hpath, (changedEntry_eq_some hpath).mpr ⟨rfl, hkind, h⟩⟩

/-- The entries are those that describe a difference of the two maps, and no others. -/
theorem mem_diffEntries : d ∈ diffEntries a b ↔ d.Describes (lastValue a) (lastValue b) := by
  rw [diffEntries_eq, List.mem_append, mem_removals, mem_changes, ← or_and_right]
  exact and_iff_right (em _)

/-- No differences are found when the maps agree. -/
theorem diffEntries_eq_nil : diffEntries a b = [] ↔ ∀ path, lastValue a path = lastValue b path := by
  rw [List.eq_nil_iff_forall_not_mem]
  constructor
  · intro h path
    by_contra hne
    exact h _ (mem_diffEntries.mpr (DiffEntry.describes_between hne))
  · exact fun h d hd => (mem_diffEntries.mp hd).differ (h d.path)

/-- `p` occurs among the flattened paths before `q` does. -/
def Precedes (entries : List FlatEntry) : Bytes → Bytes → Prop :=
  FirstBefore (entries.map FlatEntry.path)

/-- A pass that emits for some of the first paths emits in their order. -/
theorem pairwise_filterMap {entry : Bytes → Option DiffEntry} {entries : List FlatEntry}
    (h : ∀ path ∈ firstPaths entries, ∀ d, entry path = some d → d.path = path) :
    (((firstPaths entries).filterMap entry).map DiffEntry.path).Pairwise (Precedes entries) := by
  rw [List.pairwise_map, List.pairwise_filterMap]
  refine (pairwise_eraseDups (entries.map FlatEntry.path)).imp_of_mem fun {p q} hp hq hpq d hd d' hd' => ?_
  rwa [h p hp d hd, h q hq d' hd']

theorem removals_inOrder (a b : List FlatEntry) :
    ((removals a b).map DiffEntry.path).Pairwise (Precedes a) :=
  pairwise_filterMap fun _ hpath _ hd => ((removedEntry_eq_some (mem_firstPaths.mp hpath)).mp hd).1

theorem changes_inOrder (a b : List FlatEntry) :
    ((changes a b).map DiffEntry.path).Pairwise (Precedes b) :=
  pairwise_filterMap fun _ hpath _ hd => ((changedEntry_eq_some (mem_firstPaths.mp hpath)).mp hd).1

/-- No path is in both passes: only the second one's are paths of the new document. -/
theorem diffEntries_nodup (a b : List FlatEntry) : ((diffEntries a b).map DiffEntry.path).Nodup := by
  rw [diffEntries_eq, List.map_append, List.nodup_append]
  refine ⟨nodup_of_firstBefore (removals_inOrder a b), nodup_of_firstBefore (changes_inOrder a b), ?_⟩
  intro path hremoved path' hchanged heq
  obtain ⟨d, hd, rfl⟩ := List.mem_map.mp hremoved
  obtain ⟨d', hd', rfl⟩ := List.mem_map.mp hchanged
  obtain ⟨hkind, h⟩ := mem_removals.mp hd
  obtain ⟨hkind', h'⟩ := mem_changes.mp hd'
  have hafter : d.after = d'.after := by rw [h.after, h'.after, heq]
  rw [DiffEntry.after, DiffEntry.after, hkind] at hafter
  cases hd' : d'.kind with
  | kRemoved => exact hkind' hd'
  | kAdded =>
      rw [hd'] at hafter
      cases hafter
  | kChanged =>
      rw [hd'] at hafter
      cases hafter

/-! ### Applying a diff -/

/-- The map after every entry has removed its path or set it to the new value. -/
def applyDiff (values : Bytes → Option Bytes) (ds : List DiffEntry) : Bytes → Option Bytes :=
  applyUpdates values (ds.map fun d => (d.path, d.after))

theorem applyDiff_diffEntries (a b : List FlatEntry) :
    applyDiff (lastValue a) (diffEntries a b) = lastValue b := by
  apply applyUpdates_eq
  · intro u hu
    obtain ⟨d, hd, rfl⟩ := List.mem_map.mp hu
    exact (mem_diffEntries.mp hd).after
  · intro path hne
    have hd := mem_diffEntries.mpr (DiffEntry.describes_between hne)
    rw [List.map_map]
    exact List.mem_map.mpr ⟨_, hd, rfl⟩

/-! ### The other way round -/

/-- Added and removed exchanged. -/
def DiffKind.reverse : DiffKind → DiffKind
  | .kAdded => .kRemoved
  | .kRemoved => .kAdded
  | .kChanged => .kChanged

/-- The entry that undoes `d`. -/
def DiffEntry.reverse (d : DiffEntry) : DiffEntry :=
  { kind := d.kind.reverse, path := d.path, oldValue := d.newValue, newValue := d.oldValue }

@[simp] theorem DiffEntry.reverse_reverse (d : DiffEntry) : d.reverse.reverse = d := by
  obtain ⟨kind, path, oldValue, newValue⟩ := d
  cases kind <;> rfl

theorem DiffEntry.Describes.reverse {old new : Bytes → Option Bytes} (h : d.Describes old new) :
    d.reverse.Describes new old := by
  obtain ⟨kind, path, oldValue, newValue⟩ := d
  cases kind with
  | kAdded => exact ⟨h.after, h.before, h.differ.symm, nofun, fun _ => h.blank_old rfl⟩
  | kRemoved => exact ⟨h.after, h.before, h.differ.symm, fun _ => h.blank_new rfl, nofun⟩
  | kChanged => exact ⟨h.after, h.before, h.differ.symm, nofun, nofun⟩

theorem diffEntries_reverse (a b : List FlatEntry) :
    (diffEntries b a).Perm ((diffEntries a b).map DiffEntry.reverse) := by
  have hinj : Function.Injective DiffEntry.reverse :=
    Function.LeftInverse.injective DiffEntry.reverse_reverse
  have hnodup : ∀ a b, (diffEntries a b).Nodup := fun a b =>
    List.Nodup.of_map _ (diffEntries_nodup a b)
  rw [List.perm_ext_iff_of_nodup (hnodup b a) (List.Nodup.map hinj (hnodup a b))]
  intro d
  rw [mem_diffEntries, List.mem_map]
  constructor
  · exact fun h => ⟨d.reverse, mem_diffEntries.mpr h.reverse, d.reverse_reverse⟩
  · rintro ⟨d', hd', rfl⟩
    exact (mem_diffEntries.mp hd').reverse

/-- A diff is a patch from the one map to the other, in the order of the documents. -/
theorem diffEntries_patch (a b : List FlatEntry) :
    applyDiff (lastValue a) (diffEntries a b) = lastValue b ∧
    ((diffEntries a b).map DiffEntry.path).Nodup ∧
    (∀ d ∈ diffEntries a b, d.Describes (lastValue a) (lastValue b)) ∧
    (∃ removed others, diffEntries a b = removed ++ others ∧
      (∀ d ∈ removed, d.kind = .kRemoved) ∧ (∀ d ∈ others, d.kind ≠ .kRemoved) ∧
      (removed.map DiffEntry.path).Pairwise (Precedes a) ∧
      (others.map DiffEntry.path).Pairwise (Precedes b)) ∧
    diffEntries a a = [] ∧
    (diffEntries b a).Perm ((diffEntries a b).map DiffEntry.reverse) :=
  ⟨applyDiff_diffEntries a b, diffEntries_nodup a b, fun _ => mem_diffEntries.mp,
    ⟨removals a b, changes a b, diffEntries_eq a b, fun _ hd => (mem_removals.mp hd).1,
      fun _ hd => (mem_changes.mp hd).1, removals_inOrder a b, changes_inOrder a b⟩,
    diffEntries_eq_nil.mpr fun _ => rfl, diffEntries_reverse a b⟩

end Bytewright.Cfgscript
