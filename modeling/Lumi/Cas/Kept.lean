import Lumi.Cas.Garbage

/-!
# Trees that are kept

A tree is kept if it lists each path once and its contents are in the store, under their hashes.
What `createCommit` makes of the files of such trees is kept again, and shows the states that the
files have.
-/

namespace Lumi.Cas

open Js List InsertionMap

/-! ## Trees that are kept -/

/-- What is compared of a tree. -/
def listing (tree : List TreeEntry) : List (Text × Text × ℕ) :=
  tree.map fun e => (e.path, e.hash, e.mode)

theorem stateIn_congr {tree tree' : List TreeEntry} (h : listing tree' = listing tree) (path : Text) :
    stateIn tree' path = stateIn tree path := by
  rw [stateIn_eq_get?, stateIn_eq_get?]
  exact congrArg (fun l => (InsertionMap.ofList l).get? path) h

section

variable [Runtime]

/-- Each path is listed once, and the content of each is in the store, under its hash. -/
structure Kept (s : CasStore) (tree : List TreeEntry) : Prop where
  nodup : (tree.map TreeEntry.path).Nodup
  clean : ∀ e ∈ tree, cleanPath e.path = e.path
  stored : ∀ e ∈ tree, ∃ blob, s.getBlob e.hash = some blob ∧ sha256 blob.data = e.hash

/-- Every commit has a tree that is kept. -/
def WellKept (s : CasStore) : Prop :=
  ∀ commitId commit, s.getCommit commitId = some commit → Kept s (s.treeOf (some commit))

/-- A file as it comes out of a tree that is kept. -/
structure StoredFile (s : CasStore) (f : FileInput) : Prop where
  clean : cleanPath f.path = f.path
  stored : ∃ blob, s.getBlob (sha256 f.data) = some blob ∧ sha256 blob.data = sha256 f.data

/-- Content hash and mode of a file. -/
def fileState (f : FileInput) : Text × ℕ := (sha256 f.data, f.mode.getD 0o644)

variable {s s' : CasStore} {tree tree' : List TreeEntry}

theorem kept_nil (s : CasStore) : Kept s [] :=
  ⟨nodup_nil, nofun, nofun⟩

theorem Kept.extends (h : Kept s tree) (hs : Extends s s') : Kept s' tree :=
  ⟨h.nodup, h.clean, fun e he => (h.stored e he).imp fun _ hblob => ⟨hs.blob hblob.1, hblob.2⟩⟩

theorem Kept.of_listing (h : Kept s tree) (heq : listing tree' = listing tree) : Kept s tree' := by
  have hpaths : tree'.map TreeEntry.path = tree.map TreeEntry.path := by
    have hmap := congrArg (List.map Prod.fst) heq
    rw [listing, listing, map_map, map_map] at hmap
    exact hmap
  have hentry : ∀ e' ∈ tree', ∃ e ∈ tree, e.path = e'.path ∧ e.hash = e'.hash := by
    intro e' he'
    have hmem : (e'.path, e'.hash, e'.mode) ∈ listing tree := heq ▸ mem_map_of_mem he'
    obtain ⟨e, he, hsame⟩ := mem_map.mp hmem
    obtain ⟨hpath, hrest⟩ := Prod.mk.inj hsame
    exact ⟨e, he, hpath, (Prod.mk.inj hrest).1⟩
  refine ⟨hpaths ▸ h.nodup, fun e' he' => ?_, fun e' he' => ?_⟩
  · obtain ⟨e, he, hpath, -⟩ := hentry e' he'
    exact hpath ▸ h.clean e he
  · obtain ⟨e, he, -, hhash⟩ := hentry e' he'
    exact hhash ▸ h.stored e he

/-- The entry of a path. -/
theorem Kept.get?_entriesByPath (h : Kept s tree) {path : Text} {e : TreeEntry} :
    (entriesByPath tree).get? path = some e ↔ e ∈ tree ∧ e.path = path := by
  have hnodup : ((tree.map fun e => (e.path, e)).map Prod.fst).Nodup := by
    rw [map_map]
    exact h.nodup
  rw [entriesByPath, get?_ofList_eq_some_iff hnodup, mem_map]
  constructor
  · rintro ⟨e', he', heq⟩
    obtain ⟨hpath, rfl⟩ := Prod.mk.inj heq
    exact ⟨he', hpath⟩
  · rintro ⟨he, rfl⟩
    exact ⟨e, he, rfl⟩

/-- Looking a path up finds its entry. -/
theorem Kept.find?_path (h : Kept s tree) (path : Text) :
    (tree.find? fun e => e.path = path) = (entriesByPath tree).get? path := by
  cases hfind : tree.find? fun e => e.path = path with
  | none =>
    rw [eq_comm, Option.eq_none_iff_forall_not_mem]
    intro e he
    obtain ⟨hmem, hpath⟩ := h.get?_entriesByPath.mp he
    exact absurd hpath (by simpa using find?_eq_none.mp hfind e hmem)
  | some e =>
    have hpath : e.path = path := by simpa using find?_some hfind
    exact (h.get?_entriesByPath.mpr ⟨mem_of_find?_eq_some hfind, hpath⟩).symm

omit [Runtime] in
theorem mem_filesOf (f : FileInput) : f ∈ s.filesOf tree ↔
    ∃ e ∈ tree, ∃ blob, s.getBlob e.hash = some blob ∧ f = ⟨e.path, blob.data, some e.mode⟩ := by
  rw [CasStore.filesOf, mem_filterMap]
  constructor
  · rintro ⟨e, he, hf⟩
    obtain ⟨blob, hblob, rfl⟩ := Option.map_eq_some_iff.mp hf
    exact ⟨e, he, blob, hblob, rfl⟩
  · rintro ⟨e, he, blob, hblob, rfl⟩
    exact ⟨e, he, by rw [hblob, Option.map_some]⟩

theorem Kept.storedFile_filesOf (h : Kept s tree) {f : FileInput} (hf : f ∈ s.filesOf tree) :
    StoredFile s f := by
  obtain ⟨e, he, blob, hblob, rfl⟩ := (mem_filesOf f).mp hf
  obtain ⟨blob', hblob', hhash⟩ := h.stored e he
  obtain rfl := Option.some.inj (hblob.symm.trans hblob')
  exact ⟨h.clean e he, blob, by rw [hhash, hblob], rfl⟩

theorem Kept.nodup_filesOf (h : Kept s tree) : ((s.filesOf tree).map FileInput.path).Nodup := by
  have hsub : ∀ tree : List TreeEntry,
      ((s.filesOf tree).map FileInput.path).Sublist (tree.map TreeEntry.path) := by
    intro tree
    induction tree with
    | nil => exact .slnil
    | cons e rest ih =>
      rw [CasStore.filesOf, filterMap_cons, map_cons]
      cases s.getBlob e.hash with
      | none => exact ih.cons _
      | some blob => exact ih.cons_cons _
  exact (hsub tree).nodup h.nodup

/-! ## Files under their paths -/

section

omit [Runtime]

theorem get?_byPath {files : List FileInput} (hnodup : (files.map FileInput.path).Nodup)
    {path : Text} {f : FileInput} :
    (CasStore.byPath files).get? path = some f ↔ f ∈ files ∧ f.path = path := by
  have hkeys : ((files.map fun f => (f.path, f)).map Prod.fst).Nodup := by
    rw [map_map]
    exact hnodup
  rw [CasStore.byPath, get?_ofList_eq_some_iff hkeys, mem_map]
  constructor
  · rintro ⟨f', hf', heq⟩
    obtain ⟨hpath, rfl⟩ := Prod.mk.inj heq
    exact ⟨hf', hpath⟩
  · rintro ⟨hf, rfl⟩
    exact ⟨f, hf, rfl⟩

/-- The files that come later count. -/
theorem get?_byPath_append (files : List FileInput) {later : List FileInput}
    (hnodup : (later.map FileInput.path).Nodup) (path : Text) :
    (CasStore.byPath (files ++ later)).get? path =
      ((CasStore.byPath later).get? path).or ((CasStore.byPath files).get? path) := by
  have hkeys : ((later.map fun f => (f.path, f)).map Prod.fst).Nodup := by
    rw [map_map]
    exact hnodup
  rw [CasStore.byPath, CasStore.byPath, CasStore.byPath, InsertionMap.ofList, InsertionMap.ofList,
    InsertionMap.ofList, map_append, foldl_append, get?_foldl_set hkeys,
    get?_foldl_set hkeys, get?_empty, Option.or_none]

/-- The values of a map that has every file under its path. -/
theorem nodup_values {m : InsertionMap Text FileInput}
    (hm : ∀ path f, m.get? path = some f → f.path = path) :
    (m.values.map FileInput.path).Nodup := by
  have hkeys : m.values.map FileInput.path = m.keys := by
    rw [InsertionMap.values, InsertionMap.keys, map_map]
    exact map_congr_left fun e he => hm e.1 e.2 (mem_entries_iff.mp he)
  rw [hkeys]
  exact m.nodup

theorem get?_byPath_values {m : InsertionMap Text FileInput}
    (hm : ∀ path f, m.get? path = some f → f.path = path) (path : Text) :
    (CasStore.byPath m.values).get? path = m.get? path := by
  refine Option.ext fun f => ?_
  rw [get?_byPath (nodup_values hm), InsertionMap.values, mem_map]
  constructor
  · rintro ⟨⟨⟨path', f'⟩, he, rfl⟩, rfl⟩
    have hget := mem_entries_iff.mp he
    rwa [hm path' f' hget]
  · intro hf
    exact ⟨⟨(path, f), mem_entries_iff.mpr hf, rfl⟩, hm path f hf⟩

end

/-- The states of a tree are those of its files. -/
theorem Kept.map_byPath_filesOf (h : Kept s tree) (path : Text) :
    ((CasStore.byPath (s.filesOf tree)).get? path).map fileState = stateIn tree path := by
  rw [stateIn]
  refine Option.ext fun state => ?_
  rw [Option.map_eq_some_iff, Option.map_eq_some_iff]
  constructor
  · rintro ⟨f, hf, rfl⟩
    obtain ⟨hmem, rfl⟩ := (get?_byPath h.nodup_filesOf).mp hf
    obtain ⟨e, he, blob, hblob, rfl⟩ := (mem_filesOf f).mp hmem
    obtain ⟨blob', hblob', hhash⟩ := h.stored e he
    obtain rfl := Option.some.inj (hblob.symm.trans hblob')
    exact ⟨e, h.get?_entriesByPath.mpr ⟨he, rfl⟩, by rw [fileState, hhash, Option.getD_some]⟩
  · rintro ⟨e, he, rfl⟩
    obtain ⟨hmem, rfl⟩ := h.get?_entriesByPath.mp he
    obtain ⟨blob, hblob, hhash⟩ := h.stored e hmem
    refine ⟨⟨e.path, blob.data, some e.mode⟩, (get?_byPath h.nodup_filesOf).mpr ⟨?_, rfl⟩, ?_⟩
    · exact (mem_filesOf _).mpr ⟨e, hmem, blob, hblob, rfl⟩
    · rw [fileState, hhash, Option.getD_some]

/-! ## The tree that is put -/

theorem extends_createCommit (s : CasStore) (draw : Draw) (message : Text) (files : List FileInput)
    (frameIndex : ℕ) (parentId branchName existingChangeId : Option Text) :
    Extends s (s.createCommit draw message files frameIndex parentId branchName
      existingChangeId).2 :=
  ⟨(extends_putFiles s files).blob, (extends_putFiles s files).chunk⟩

/-- A tree is kept if its paths are distinct once they are clean and its files are stored. -/
theorem kept_putTree {files : List FileInput}
    (hstored : ∀ f ∈ files,
      ∃ blob, s'.getBlob (sha256 f.data) = some blob ∧ sha256 blob.data = sha256 f.data)
    (hnodup : (files.map fun f => cleanPath f.path).Nodup) : Kept s' (s.putTree files).1 := by
  have hperm := s.perm_putTree files
  have hentry : ∀ e ∈ (s.putTree files).1,
      ∃ f ∈ files, cleanPath f.path = e.path ∧ sha256 f.data = e.hash := by
    intro e he
    have hmem := hperm.mem_iff.mp (mem_map_of_mem he)
    obtain ⟨f, hf, heq⟩ := mem_map.mp hmem
    obtain ⟨hpath, hrest⟩ := Prod.mk.inj heq
    exact ⟨f, hf, hpath, (Prod.mk.inj hrest).1⟩
  constructor
  · have hpaths := hperm.map Prod.fst
    rw [map_map, map_map] at hpaths
    exact hpaths.nodup_iff.mpr hnodup
  · intro e he
    obtain ⟨f, -, hpath, -⟩ := hentry e he
    rw [← hpath]
    exact cleanPath_cleanPath f.path
  · intro e he
    obtain ⟨f, hf, -, hhash⟩ := hentry e he
    rw [← hhash]
    exact hstored f hf

omit [Runtime] in
/-- Paths that are clean are distinct as they are. -/
theorem nodup_cleanPath {files : List FileInput} (hclean : ∀ f ∈ files, cleanPath f.path = f.path)
    (hnodup : (files.map FileInput.path).Nodup) : (files.map fun f => cleanPath f.path).Nodup := by
  rw [map_congr_left hclean]
  exact hnodup

/-- The states in a tree are those of the files that are put. -/
theorem stateIn_putTree_byPath {files : List FileInput} (hfiles : ∀ f ∈ files, StoredFile s f)
    (hnodup : (files.map FileInput.path).Nodup) (path : Text) :
    stateIn (s.putTree files).1 path = ((CasStore.byPath files).get? path).map fileState := by
  refine Option.ext fun state => ?_
  obtain ⟨hash, mode⟩ := state
  rw [stateIn_putTree s (fun f hf => (hfiles f hf).clean) hnodup, Option.map_eq_some_iff]
  constructor
  · rintro ⟨f, hf, hpath, rfl, rfl⟩
    exact ⟨f, (get?_byPath hnodup).mpr ⟨hf, hpath⟩, rfl⟩
  · rintro ⟨f, hf, heq⟩
    obtain ⟨hmem, hpath⟩ := (get?_byPath hnodup).mp hf
    obtain ⟨hhash, hmode⟩ := Prod.mk.inj heq
    exact ⟨f, hmem, hpath, hhash, hmode⟩

end

end Lumi.Cas
