import Mathlib.Data.List.Sort
import Lumi.Substrate.BroccoliInvertedIndexEngine

/-!
# Phrase search

`search` ranks the documents that contain a term of the query.  For a phrase it keeps those in which
as many terms match as the query has tokens, and in which the tokens stand one after the other.  The
terms that match are a set, so a query that repeats a word asks for more of them than there are: it
finds nothing (`phrase_search_exact_iff`).
-/

namespace Lumi.Substrate

open Js List InsertionMap

/-- `xs.slice(0, end)` -/
def sliceTo {α : Type*} (xs : List α) : Number → List α
  | .nan => []
  | .negInfinity => []
  | .posInfinity => xs
  | .finite q =>
    let n := q.num.tdiv q.den
    if 0 ≤ n then xs.take n.toNat else xs.take (xs.length - (-n).toNat)

structure SearchOptions where
  k1 : Option Float
  b : Option Float
  phrase : Option Bool

structure DocScore where
  score : Float
  matchedTerms : InsertionSet Text

/-- docId -> score & matched terms -/
abbrev DocScores := InsertionMap Text DocScore

structure Bm25SearchResult where
  docId : Text
  score : Float
  matchedTerms : List Text

namespace TableIndexState

def termScore (k1 b avgdl idf : Float) (doc : IndexedDoc) (posting : PostingEntry) : Float :=
  let tf := Float.ofNat posting.termFrequency
  let numerator := tf * (k1 + 1)
  -- `avgdl || 1`
  let avgdl := if avgdl == 0 || avgdl.isNaN then 1 else avgdl
  let denominator := tf + k1 * (1 - b + b * (Float.ofNat doc.length / avgdl))
  idf * (numerator / denominator)

section

variable (s : TableIndexState)

/-- One pass of the loop over the postings of a term. -/
def addScore (k1 b avgdl idf : Float) (term : Text) (docScores : DocScores)
    (e : Text × PostingEntry) : DocScores :=
  match s.docs.get? e.1 with
  | none => docScores
  | some doc =>
    let acc := (docScores.get? e.1).getD ⟨0, InsertionMap.empty⟩
    docScores.set e.1 ⟨acc.score + termScore k1 b avgdl idf doc e.2, acc.matchedTerms.add term⟩

/-- BM25 standard IDF with smoothing -/
def idf (docCount n : ℕ) : Float :=
  Float.log (1 + (Float.ofNat docCount - Float.ofNat n + 0.5) / (Float.ofNat n + 0.5))

/-- One pass of the loop over the tokens of the query. -/
def addTerm (k1 b avgdl : Float) (docScores : DocScores) (term : Text) : DocScores :=
  match s.postings.get? term with
  | none => docScores
  | some docMap =>
    docMap.entries.foldl (s.addScore k1 b avgdl (idf s.docs.size docMap.size) term) docScores

def matchesPhrasePositions (docId : Text) : List Text → Bool
  | [] => false
  | first :: rest =>
    match s.postings.entryOf first docId with
    | none => false
    | some firstTermPostings => firstTermPostings.positions.any fun startPos =>
        (rest.zipIdx 1).all fun token =>
          match s.postings.entryOf token.1 docId with
          | none => false
          | some nextPostings => startPos + token.2 ∈ nextPostings.positions

def keepPhrases (queryTokens : List Text) (results : List Bm25SearchResult) :
    List Bm25SearchResult :=
  results.filter fun res =>
    if res.matchedTerms.length < queryTokens.length then false
    else s.matchesPhrasePositions res.docId queryTokens

def search [Host] (query : Text) (limit : Number) (options : SearchOptions) :
    List Bm25SearchResult :=
  if s.docs.size = 0 then []
  else
    let k1 := options.k1.getD 1.2
    let b := options.b.getD 0.75
    let isPhrase := options.phrase.getD false
    let queryTokens := tokenize query
    if queryTokens.length = 0 then []
    else
      let avgdl := Float.ofInt s.totalDocLength / Float.ofNat s.docs.size
      let docScores := queryTokens.foldl (s.addTerm k1 b avgdl) InsertionMap.empty
      let results : List Bm25SearchResult :=
        docScores.entries.map fun e => ⟨e.1, e.2.score, e.2.matchedTerms.keys⟩
      let results :=
        if isPhrase ∧ 1 < queryTokens.length then s.keepPhrases queryTokens results else results
      sliceTo (results.insertionSort fun x y => ¬0 < y.score - x.score) limit

end

end TableIndexState

def BroccoliInvertedIndexEngine.search [Host] (s : BroccoliInvertedIndexEngine) (table query : Text)
    (limit : Option Number) (options : SearchOptions) : List Bm25SearchResult :=
  match s.tables.get? table with
  | none => []
  | some state => state.search query (limit.getD (.finite 10)) options

/-! ## The terms that match -/

/-- The terms counted as matched for a document. -/
def DocScores.matched (docScores : DocScores) (docId : Text) : List Text :=
  ((docScores.get? docId).map fun acc => acc.matchedTerms.keys).getD []

theorem DocScores.nodup_matched (docScores : DocScores) (docId : Text) :
    (docScores.matched docId).Nodup := by
  rw [matched]
  cases docScores.get? docId with
  | none => exact nodup_nil
  | some acc => exact acc.matchedTerms.nodup

namespace TableIndexState

variable {s : TableIndexState} {k1 b avgdl : Float} {docScores : DocScores}

/-- No document is posted that is not there. -/
def PostsOnlyDocs (s : TableIndexState) : Prop :=
  ∀ term docId, (s.postings.entryOf term docId).isSome → (s.docs.get? docId).isSome

variable {t docId : Text}

theorem mem_matched_addScore {idf : Float} {term : Text} {e : Text × PostingEntry}
    (h : (s.docs.get? e.1).isSome) :
    t ∈ (s.addScore k1 b avgdl idf term docScores e).matched docId ↔
      (t = term ∧ docId = e.1) ∨ t ∈ docScores.matched docId := by
  obtain ⟨doc, hdoc⟩ := Option.isSome_iff_exists.mp h
  rw [addScore, hdoc]
  by_cases hid : docId = e.1
  · subst hid
    rw [DocScores.matched, get?_set_self, Option.map_some, Option.getD_some,
      InsertionSet.mem_keys_add, DocScores.matched]
    cases docScores.get? e.1 <;> simp
  · simp [DocScores.matched, get?_set_of_ne, hid]

theorem mem_matched_foldl_addScore {idf : Float} {term : Text} {l : List (Text × PostingEntry)}
    (h : ∀ e ∈ l, (s.docs.get? e.1).isSome) :
    t ∈ (l.foldl (s.addScore k1 b avgdl idf term) docScores).matched docId ↔
      (t = term ∧ docId ∈ l.map Prod.fst) ∨ t ∈ docScores.matched docId := by
  induction l generalizing docScores with
  | nil => simp
  | cons e rest ih =>
    rw [foldl_cons, ih fun e' he' => h e' (mem_cons_of_mem _ he'),
      mem_matched_addScore (h e mem_cons_self), map_cons, mem_cons]
    tauto

theorem mem_matched_addTerm (h : s.PostsOnlyDocs) {term t docId : Text} :
    t ∈ (s.addTerm k1 b avgdl docScores term).matched docId ↔
      (t = term ∧ (s.postings.entryOf term docId).isSome) ∨ t ∈ docScores.matched docId := by
  rw [addTerm, Postings.entryOf]
  cases hmap : s.postings.get? term with
  | none => simp
  | some docMap =>
    have hdocs : ∀ e ∈ docMap.entries, (s.docs.get? e.1).isSome := by
      intro e he
      have hentry := mem_entries_iff.mp he
      apply h term e.1
      rw [Postings.entryOf, hmap, Option.bind_some, hentry]
      rfl
    rw [mem_matched_foldl_addScore hdocs, Option.bind_some, Option.isSome_iff_exists,
      ← mem_keys_iff]
    rfl

theorem mem_matched_foldl_addTerm (h : s.PostsOnlyDocs) {terms : List Text} :
    t ∈ (terms.foldl (s.addTerm k1 b avgdl) docScores).matched docId ↔
      (t ∈ terms ∧ (s.postings.entryOf t docId).isSome) ∨ t ∈ docScores.matched docId := by
  induction terms generalizing docScores with
  | nil => simp
  | cons term rest ih =>
    rw [foldl_cons, ih, mem_matched_addTerm h, mem_cons]
    constructor
    · rintro (⟨hmem, hsome⟩ | ⟨rfl, hsome⟩ | hmatched)
      · exact .inl ⟨.inr hmem, hsome⟩
      · exact .inl ⟨.inl rfl, hsome⟩
      · exact .inr hmatched
    · rintro (⟨rfl | hmem, hsome⟩ | hmatched)
      · exact .inr (.inl ⟨rfl, hsome⟩)
      · exact .inl ⟨hmem, hsome⟩
      · exact .inr (.inr hmatched)

/-! ## The tokens that stand one after the other -/

/-- A list is contiguous in another one, read by positions. -/
theorem isInfix_iff_getElem? {α : Type*} {xs ys : List α} (hne : xs ≠ []) :
    xs <:+: ys ↔ ∃ start : ℕ, ∀ i x, xs[i]? = some x → ys[start + i]? = some x := by
  rw [infix_iff_getElem?]
  constructor
  · rintro ⟨start, -, hall⟩
    refine ⟨start, fun i x hx => ?_⟩
    obtain ⟨hi, rfl⟩ := List.getElem?_eq_some_iff.mp hx
    rw [Nat.add_comm]
    exact hall i hi
  · rintro ⟨start, hall⟩
    have hpos := length_pos_of_ne_nil hne
    have hlast := hall (xs.length - 1) _ (getElem?_eq_getElem (by omega))
    obtain ⟨hlt, -⟩ := List.getElem?_eq_some_iff.mp hlast
    refine ⟨start, by omega, fun i hi => ?_⟩
    rw [Nat.add_comm]
    exact hall i _ (getElem?_eq_getElem hi)

theorem matchesPhrasePositions_cons {docId first : Text} {rest : List Text} :
    s.matchesPhrasePositions docId (first :: rest) = true ↔
      ∃ start, ∀ i term, (first :: rest)[i]? = some term →
        ∃ posting, s.postings.entryOf term docId = some posting ∧ start + i ∈ posting.positions := by
  rw [matchesPhrasePositions]
  have hstep : ∀ term n, (match s.postings.entryOf term docId with
        | none => false
        | some nextPostings => decide (n ∈ nextPostings.positions)) = true ↔
      ∃ posting, s.postings.entryOf term docId = some posting ∧ n ∈ posting.positions := by
    intro term n
    cases s.postings.entryOf term docId <;> simp
  cases hfirst : s.postings.entryOf first docId with
  | none =>
    refine iff_of_false (by simp) ?_
    rintro ⟨start, hall⟩
    obtain ⟨posting, hposting, -⟩ := hall 0 first rfl
    rw [hfirst] at hposting
    cases hposting
  | some posting =>
    simp only [any_eq_true, all_eq_true, Prod.forall, hstep]
    constructor
    · rintro ⟨start, hmem, hall⟩
      refine ⟨start, fun i term hterm => ?_⟩
      cases i with
      | zero =>
        obtain rfl := Option.some.inj hterm
        exact ⟨posting, hfirst, by simpa using hmem⟩
      | succ i =>
        apply hall term (i + 1)
        exact mk_mem_zipIdx_iff_le_and_getElem?_sub.mpr ⟨by omega, hterm⟩
    · rintro ⟨start, hall⟩
      obtain ⟨posting', hposting', hmem⟩ := hall 0 first rfl
      obtain rfl := Option.some.inj (hfirst.symm.trans hposting')
      refine ⟨start, by simpa using hmem, fun term i hi => ?_⟩
      obtain ⟨hle, hterm⟩ := mk_mem_zipIdx_iff_le_and_getElem?_sub.mp hi
      apply hall i term
      rwa [← Nat.sub_add_cancel hle, getElem?_cons_succ]

section

variable [Host] {texts : Text → Option Text}

theorem Indexes.postsOnlyDocs (h : s.Indexes texts) : s.PostsOnlyDocs := by
  intro term docId hsome
  rw [h.postings] at hsome
  rw [h.docs]
  cases htext : texts docId with
  | none => rw [htext] at hsome; exact hsome
  | some txt => rfl

theorem Indexes.isSome_entryOf_iff (h : s.Indexes texts) {term docId : Text} :
    (s.postings.entryOf term docId).isSome ↔ ∃ txt, texts docId = some txt ∧ term ∈ tokenize txt := by
  rw [h.postings]
  cases texts docId with
  | none => simp
  | some txt =>
    rw [Option.bind_some, entryIn]
    split <;> simp_all

/-- The postings of a document answer where a term stands. -/
theorem Indexes.mem_positions_iff (h : s.Indexes texts) {docId txt : Text}
    (htext : texts docId = some txt) {term : Text} {n : ℕ} :
    (∃ posting, s.postings.entryOf term docId = some posting ∧ n ∈ posting.positions) ↔
      (tokenize txt)[n]? = some term := by
  have hplaces : n ∈ (tokenize txt).idxsOf term ↔ (tokenize txt)[n]? = some term := by
    rw [mem_idxsOf_iff_exists_getElem_pos, List.getElem?_eq_some_iff]
    simp only [beq_iff_eq]
  rw [h.postings, htext, Option.bind_some, entryIn, ← hplaces]
  split
  · simp
  · next hnot =>
    refine iff_of_false (by simp) fun hmem => ?_
    exact hnot (mem_of_getElem? (hplaces.mp hmem))

variable {queryTokens : List Text}

theorem Indexes.matchesPhrasePositions_iff (h : s.Indexes texts) {docId : Text}
    (hne : queryTokens ≠ []) :
    s.matchesPhrasePositions docId queryTokens = true ↔
      ∃ txt, texts docId = some txt ∧ queryTokens <:+: tokenize txt := by
  obtain ⟨first, rest, rfl⟩ := exists_cons_of_ne_nil hne
  rw [matchesPhrasePositions_cons]
  cases htext : texts docId with
  | none =>
    refine iff_of_false ?_ (by simp)
    rintro ⟨start, hall⟩
    obtain ⟨posting, hposting, -⟩ := hall 0 first rfl
    rw [h.postings, htext] at hposting
    cases hposting
  | some txt =>
    simp only [h.mem_positions_iff htext, ← isInfix_iff_getElem? hne, Option.some.injEq,
      exists_eq_left']

/-! ## What a phrase search finds -/

/-- As many terms match as the query has tokens when it repeats none and all of them are posted. -/
theorem Indexes.length_le_matched_iff (h : s.Indexes texts) {docId txt : Text}
    (htext : texts docId = some txt) (hsub : queryTokens ⊆ tokenize txt) :
    queryTokens.length ≤
        (DocScores.matched (queryTokens.foldl (s.addTerm k1 b avgdl) InsertionMap.empty) docId).length ↔
      queryTokens.Nodup := by
  set docScores := queryTokens.foldl (s.addTerm k1 b avgdl) InsertionMap.empty
  have hmem : ∀ t, t ∈ DocScores.matched docScores docId ↔ t ∈ queryTokens := by
    intro t
    have hfold : t ∈ DocScores.matched docScores docId ↔
        (t ∈ queryTokens ∧ (s.postings.entryOf t docId).isSome) ∨
          t ∈ DocScores.matched InsertionMap.empty docId :=
      mem_matched_foldl_addTerm h.postsOnlyDocs
    rw [hfold, h.isSome_entryOf_iff]
    constructor
    · rintro (⟨hmem, -⟩ | hnone)
      · exact hmem
      · exact absurd hnone not_mem_nil
    · exact fun hmem => .inl ⟨hmem, txt, htext, hsub hmem⟩
  have hnodup := DocScores.nodup_matched docScores docId
  constructor
  · intro hle
    have hpart : (DocScores.matched docScores docId).Subperm queryTokens :=
      subperm_of_subset hnodup fun t ht => (hmem t).mp ht
    exact (hpart.perm_of_length_le hle).nodup_iff.mp hnodup
  · intro hquery
    exact (subperm_of_subset hquery fun t ht => (hmem t).mpr ht).length_le

omit [Host] in
theorem mem_keepPhrases_iff {docScores : DocScores} {docId : Text} (hne : queryTokens ≠ []) :
    docId ∈ (s.keepPhrases queryTokens (docScores.entries.map fun e =>
        ⟨e.1, e.2.score, e.2.matchedTerms.keys⟩)).map Bm25SearchResult.docId ↔
      queryTokens.length ≤ (docScores.matched docId).length ∧
        s.matchesPhrasePositions docId queryTokens = true := by
  have hpos := length_pos_of_ne_nil hne
  rw [DocScores.matched, mem_map, keepPhrases]
  simp only [mem_filter, mem_map]
  constructor
  · rintro ⟨_, ⟨⟨⟨docId', acc⟩, hentry, rfl⟩, hkept⟩, rfl⟩
    rw [mem_entries_iff.mp hentry]
    dsimp only at hkept ⊢
    split at hkept
    · cases hkept
    · next hlen => exact ⟨by simpa using hlen, hkept⟩
  · rintro ⟨hlen, hmatch⟩
    cases hget : docScores.get? docId with
    | none =>
      rw [hget] at hlen
      simp only [Option.map_none, Option.getD_none, length_nil] at hlen
      omega
    | some acc =>
      rw [hget, Option.map_some, Option.getD_some] at hlen
      refine ⟨_, ⟨⟨(docId, acc), mem_entries_iff.mpr hget, rfl⟩, ?_⟩, rfl⟩
      rw [if_neg (Nat.not_lt.mpr hlen)]
      exact hmatch

/-- A document is found when the query repeats no word and its tokens are contiguous in the text. -/
theorem Indexes.mem_search_iff (h : s.Indexes texts) {query docId : Text} {k1 b : Option Float}
    (hlong : 1 < (tokenize query).length) :
    docId ∈ (s.search query .posInfinity ⟨k1, b, some true⟩).map Bm25SearchResult.docId ↔
      (tokenize query).Nodup ∧
        ∃ txt, texts docId = some txt ∧ tokenize query <:+: tokenize txt := by
  have hne : tokenize query ≠ [] := fun hnil => by simp [hnil] at hlong
  rw [search]
  split
  · next hsize =>
    have hentries : s.docs.entries = [] := length_eq_zero_iff.mp hsize
    refine iff_of_false not_mem_nil ?_
    rintro ⟨-, txt, htext, -⟩
    have hdoc := h.docs docId
    rw [htext, InsertionMap.get?, hentries] at hdoc
    cases hdoc
  · dsimp only [Option.getD_some]
    rw [if_neg (by omega), if_pos ⟨rfl, hlong⟩, sliceTo,
      ((perm_insertionSort _ _).map _).mem_iff, mem_keepPhrases_iff hne,
      h.matchesPhrasePositions_iff hne]
    constructor
    · rintro ⟨hlen, txt, htext, hinfix⟩
      exact ⟨(h.length_le_matched_iff htext hinfix.subset).mp hlen, txt, htext, hinfix⟩
    · rintro ⟨hnodup, txt, htext, hinfix⟩
      exact ⟨(h.length_le_matched_iff htext hinfix.subset).mpr hnodup, txt, htext, hinfix⟩

theorem nodup_search {query : Text} {k1 b : Option Float} :
    ((s.search query .posInfinity ⟨k1, b, some true⟩).map Bm25SearchResult.docId).Nodup := by
  rw [search]
  split
  · exact nodup_nil
  · dsimp only
    split
    · exact nodup_nil
    · rw [sliceTo, ((perm_insertionSort _ _).map _).nodup_iff]
      set docScores := (tokenize query).foldl (s.addTerm _ _ _) InsertionMap.empty
      have hkeys : ((docScores.entries.map fun e =>
          (⟨e.1, e.2.score, e.2.matchedTerms.keys⟩ : Bm25SearchResult)).map
            Bm25SearchResult.docId).Nodup := by
        rw [map_map]
        exact docScores.nodup
      split
      · exact (filter_sublist.map _).nodup hkeys
      · exact hkeys

end

end TableIndexState

/-! ## Exactness -/

section

variable [Host]

/-- The documents of a table that a phrase search finds, without a limit. -/
def BroccoliInvertedIndexEngine.phraseSearch (s : BroccoliInvertedIndexEngine)
    (table query : Text) (k1 b : Option Float) : List Text :=
  (s.search table query (some .posInfinity) ⟨k1, b, some true⟩).map Bm25SearchResult.docId

/-- The text has the tokens of the query one after the other. -/
def ContainsPhrase (query txt : Text) : Prop := tokenize query <:+: tokenize txt

/-- After the calls the search finds each document that contains the phrase, once, and no other. -/
def FindsExactly (calls : List IndexCall) (table query : Text) (k1 b : Option Float) : Prop :=
  let found := (Run.run BroccoliInvertedIndexEngine.step BroccoliInvertedIndexEngine.new
    calls).phraseSearch table query k1 b
  found.Nodup ∧ ∀ docId, docId ∈ found ↔
    ∃ txt, Run.run Documents.step (fun _ _ => none) calls table docId = some txt ∧
      ContainsPhrase query txt

theorem BroccoliInvertedIndexEngine.Indexes.mem_phraseSearch_iff {s : BroccoliInvertedIndexEngine}
    {texts : Documents} (h : s.Indexes texts) {table query docId : Text} {k1 b : Option Float}
    (hlong : 2 ≤ (tokenize query).length) :
    docId ∈ s.phraseSearch table query k1 b ↔
      (tokenize query).Nodup ∧
        ∃ txt, texts table docId = some txt ∧ ContainsPhrase query txt := by
  have htable := h table
  rw [getOrCreateTableState] at htable
  rw [phraseSearch, search]
  cases hget : s.tables.get? table with
  | none =>
    refine iff_of_false not_mem_nil ?_
    rintro ⟨-, txt, htext, -⟩
    rw [hget] at htable
    have hdoc := htable.docs docId
    rw [htext] at hdoc
    cases hdoc
  | some state =>
    rw [hget, Option.getD_some] at htable
    exact htable.mem_search_iff hlong

theorem BroccoliInvertedIndexEngine.nodup_phraseSearch (s : BroccoliInvertedIndexEngine)
    (table query : Text) (k1 b : Option Float) : (s.phraseSearch table query k1 b).Nodup := by
  rw [phraseSearch, search]
  split
  · exact nodup_nil
  · exact TableIndexState.nodup_search

/-- **Phrase search is exact** unless the query repeats a word that stands, with the rest of the
query around it, in a document of the table. -/
theorem phrase_search_exact_iff (calls : List IndexCall) (table query : Text) (k1 b : Option Float)
    (hlong : 2 ≤ (tokenize query).length) :
    FindsExactly calls table query k1 b ↔
      (tokenize query).Nodup ∨
        ∀ docId txt, Run.run Documents.step (fun _ _ => none) calls table docId = some txt →
          ¬ContainsPhrase query txt := by
  have hindexes := BroccoliInvertedIndexEngine.indexes_new.run calls
  constructor
  · rintro ⟨-, hfound⟩
    rw [or_iff_not_imp_right]
    intro hsome
    push Not at hsome
    obtain ⟨docId, txt, htext, hphrase⟩ := hsome
    exact ((hindexes.mem_phraseSearch_iff hlong).mp ((hfound docId).mpr ⟨txt, htext, hphrase⟩)).1
  · intro hcondition
    refine ⟨BroccoliInvertedIndexEngine.nodup_phraseSearch _ table query k1 b, fun docId => ?_⟩
    rw [hindexes.mem_phraseSearch_iff hlong]
    rcases hcondition with hnodup | hnone
    · exact and_iff_right hnodup
    · refine iff_of_false (fun hfound => ?_) fun hphrase => ?_
      · obtain ⟨txt, htext, hphrase⟩ := hfound.2
        exact hnone docId txt htext hphrase
      · obtain ⟨txt, htext, hphrase⟩ := hphrase
        exact hnone docId txt htext hphrase

end

section

open scoped Js.Ascii

/-- A query that names two different words. -/
theorem phrase_search_of_two_words :
    FindsExactly [.indexDocument (text "t") (text "d1") (text "red fox"),
        .indexDocument (text "t") (text "d2") (text "fox red"),
        .indexDocument (text "t") (text "d1") (text "the red fox")]
      (text "t") (text "Red fox") none none :=
  (phrase_search_exact_iff _ _ _ none none (by decide +kernel)).mpr (Or.inl (by decide +kernel))

/-- A word that is said twice is not found. -/
theorem repeated_word_not_found :
    ¬FindsExactly [.indexDocument (text "t") (text "d") (text "no no never")]
      (text "t") (text "no no") none none := by
  intro h
  have hfound := (h.2 (text "d")).mpr ⟨text "no no never", by decide +kernel,
    ⟨[], [text "never"], by decide +kernel⟩⟩
  revert hfound
  decide +kernel

end

end Lumi.Substrate
