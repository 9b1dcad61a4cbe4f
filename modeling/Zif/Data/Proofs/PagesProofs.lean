import Zif.Data.Pages
import Zif.Data.Proofs.HistoryProofs
import Zif.Go.Proofs.ResultProofs
import Zif.Lib.Proofs.RankingProofs
import Zif.Lib.Proofs.RunsProofs

/-!
# Proofs: pages of posts

A page is a page of the ranked table (`paginatedQuery_eq`). Nothing is ever removed from the table, and no
call changes an id or a date; so the ids of the recent posts stay in the same relative order
(`recentIds_write`), and a post that has not been read yet is still behind the pages that were.
-/

namespace Zif.Data

open Go

variable {P : Prims} {db : Database} {backwards : Bool} {real : Int → Int}

/-! ## One page -/

/-- The offset of a page does not overflow. -/
theorem toInt_pageStart {i : Nat} (hi : pageSize * i < 2 ^ 63) :
    (Int64.ofNat pageSize * Int64.ofNat i).toInt = ((pageSize * i : Nat) : Int) := by
  rw [← Int64.ofNat_mul, Int64.toInt_ofNat_of_lt hi]

theorem limit_page {rows : List Row} {i : Nat} (hi : pageSize * i < 2 ^ 63) :
    limit (Int64.ofNat pageSize * Int64.ofNat i) (Int64.ofNat pageSize) rows =
      Paging.page pageSize rows i := by
  have hcount : (Int64.ofNat pageSize).toInt.toNat = pageSize := by decide
  rw [limit, if_neg (by decide), hcount, toInt_pageStart hi, Int.toNat_natCast]
  rfl

namespace Database

theorem paginatedQuery_eq {query : List Row} {i : Nat} (hi : pageSize * i < 2 ^ 63) :
    paginatedQuery query (Int64.ofNat i) none = .ok (Paging.page pageSize (query.map Row.scan) i) := by
  rw [paginatedQuery, limit_page hi, Paging.page_map]

theorem recentPost_perm (db : Database) : (db.recentPost backwards).Perm db.rows := by
  refine (Ranking.byKey_perm _ _).trans ?_
  cases backwards with
  | true => exact List.reverse_perm _
  | false => exact List.Perm.refl _

theorem recentPost_pairwise (db : Database) :
    (db.recentPost backwards).Pairwise fun r r' => r'.uploadDate.toInt ≤ r.uploadDate.toInt :=
  Ranking.byKey_pairwise _ _

/-- The pages of a query, one after the other. -/
theorem mapM_paginatedQuery {query : List Row} (hlen : query.length + pageSize ≤ 2 ^ 63) :
    (List.range (Paging.count pageSize query.length)).mapM
        (fun i => paginatedQuery query (Int64.ofNat i) none) =
      .ok ((List.range (Paging.count pageSize query.length)).map
        (Paging.page pageSize (query.map Row.scan))) := by
  rw [mapM_eq_ok_iff, List.map_map]
  refine List.map_congr_left fun i hi => paginatedQuery_eq ?_
  have := (Paging.lt_count_iff (by decide) query.length i).mp (List.mem_range.mp hi)
  omega

theorem length_popularPost (db : Database) :
    (db.popularPost backwards real).length = min popularLimit db.rows.length := by
  rw [popularPost, (Ranking.byKey_perm _ _).length_eq, List.length_take, (recentPost_perm db).length_eq]

theorem sqlSum_of_range {x y : Int64} (h : -2 ^ 63 ≤ x.toInt + y.toInt ∧ x.toInt + y.toInt < 2 ^ 63) :
    sqlSum real x y = x.toInt + y.toInt := if_pos h

/-- **The pages of the popular posts hold the newest 10000 posts**, each of them once and those with most
seeders and leechers first, if no sum of the two is out of the range of integers. -/
theorem popular_pages (backwards : Bool) (real : Int → Int) (db : Database)
    (hsum : ∀ r ∈ db.rows, -2 ^ 63 ≤ r.seeders.toInt + r.leechers.toInt ∧
      r.seeders.toInt + r.leechers.toInt < 2 ^ 63) :
    ∃ (pages : List (List Post)) (newest older : List Row),
      (List.range (Paging.count pageSize (min popularLimit db.rows.length))).mapM
          (fun i => db.queryPopular backwards real (Int64.ofNat i) none) = .ok pages ∧
        (newest ++ older).Perm db.rows ∧
        newest.length = min popularLimit db.rows.length ∧
        (∀ r ∈ newest, ∀ r' ∈ older, r'.uploadDate ≤ r.uploadDate) ∧
        pages.flatten.Perm (newest.map Row.scan) ∧
        pages.flatten.Pairwise fun p p' =>
          p'.seeders.toInt + p'.leechers.toInt ≤ p.seeders.toInt + p.leechers.toInt := by
  have hlen := @length_popularPost backwards real db
  have hlimit : (db.popularPost backwards real).length + pageSize ≤ 2 ^ 63 := by
    have hle : popularLimit + pageSize ≤ 2 ^ 63 := by decide
    have := Nat.min_le_left popularLimit db.rows.length
    omega
  have hflat := @Paging.flatMap_page _ pageSize (by decide) ((db.popularPost backwards real).map Row.scan)
  have hpages := mapM_paginatedQuery hlimit
  rw [List.length_map, List.flatMap_def, hlen] at hflat
  rw [hlen] at hpages
  refine ⟨_, (db.recentPost backwards).take popularLimit, (db.recentPost backwards).drop popularLimit,
    hpages, ?_, ?_, ?_, ?_, ?_⟩
  · rw [List.take_append_drop]
    exact recentPost_perm db
  · rw [List.length_take, (recentPost_perm db).length_eq]
  · intro r hr r' hr'
    have hsorted := @recentPost_pairwise backwards db
    rw [← List.take_append_drop popularLimit (db.recentPost backwards), List.pairwise_append] at hsorted
    exact Int64.le_iff_toInt_le.mpr (hsorted.2.2 r hr r' hr')
  · rw [hflat]
    exact (Ranking.byKey_perm _ _).map Row.scan
  · have hrange : ∀ r ∈ db.popularPost backwards real,
        sqlSum real r.seeders r.leechers = r.seeders.toInt + r.leechers.toInt := by
      intro r hr
      have hrecent := List.mem_of_mem_take ((Ranking.byKey_perm _ _).mem_iff.mp hr)
      exact sqlSum_of_range (hsum r ((recentPost_perm db).mem_iff.mp hrecent))
    rw [hflat, List.pairwise_map]
    refine (Ranking.byKey_pairwise _ _).imp_of_mem fun hr hr' hle => ?_
    rwa [hrange _ hr, hrange _ hr'] at hle

/-- A post with this id and these numbers of seeders and leechers. -/
def sharedRow (id seeders leechers : Int64) : Row :=
  ⟨id, .text [97], .text [98], 0, 1, seeders, leechers, 4, .text [], .text []⟩

/-- Two posts, of which the second is shared by more peers. -/
theorem popular_pages_two : ∃ pages : List (List Post),
    (List.range 1).mapM (fun i => Database.queryPopular true id ⟨[sharedRow 1 5 0, sharedRow 2 3 4], 2⟩
      (Int64.ofNat i) none) = .ok pages ∧
    pages.flatten.Perm [(sharedRow 1 5 0).scan, (sharedRow 2 3 4).scan] ∧
    Database.queryPopular true id ⟨[sharedRow 1 5 0, sharedRow 2 3 4], 2⟩ 0 none =
      .ok [(sharedRow 2 3 4).scan, (sharedRow 1 5 0).scan] := by
  obtain ⟨pages, newest, older, hpages, hrows, hlength, -, hperm, -⟩ :=
    popular_pages true id ⟨[sharedRow 1 5 0, sharedRow 2 3 4], 2⟩ (by decide)
  have holder : older = [] := by
    have hlen := hrows.length_eq
    rw [List.length_append, hlength] at hlen
    exact List.eq_nil_of_length_eq_zero (by simpa [popularLimit] using hlen)
  rw [holder, List.append_nil] at hrows
  exact ⟨pages, hpages, hperm.trans (hrows.map Row.scan), by decide⟩

/-! ## What a write keeps -/

/-- The rows of the first database are still there, with their ids and dates. -/
def Extends (db db' : Database) : Prop :=
  ∃ f : Row → Row, (∀ r, (f r).id = r.id ∧ (f r).uploadDate = r.uploadDate) ∧
    (db.rows.map f).Sublist db'.rows

theorem Extends.refl (db : Database) : Extends db db := ⟨id, fun _ => ⟨rfl, rfl⟩, by simp⟩

theorem extends_change (db : Database) (c : Change) : Extends db (db.change P c) := by
  obtain ⟨new, hnew⟩ := insertAll_rows_append (P := P) db c.posts
  refine ⟨id, fun _ => ⟨rfl, rfl⟩, ?_⟩
  rw [change_eq, hnew, List.map_id]
  exact List.sublist_append_left _ _

theorem extends_execUpdate {id : Int64} {set : Row → Row} (fails : Option String)
    (hset : ∀ r, (set r).id = r.id ∧ (set r).uploadDate = r.uploadDate) :
    Extends db (db.execUpdate id set fails).1 := by
  cases fails with
  | some err => exact Extends.refl db
  | none =>
    refine ⟨fun r => if r.id = id then set r else r, fun r => ?_, List.Sublist.refl _⟩
    by_cases hid : r.id = id
    · simpa [hid] using hset r
    · simp [hid]

theorem extends_write (db : Database) (w : Write) : Extends db (db.write P w) := by
  cases w with
  | change c => exact extends_change db c
  | addMeta pid value fails => exact extends_execUpdate fails fun _ => ⟨rfl, rfl⟩
  | setSeeders id seeders fails => exact extends_execUpdate fails fun _ => ⟨rfl, rfl⟩
  | setLeechers id leechers fails => exact extends_execUpdate fails fun _ => ⟨rfl, rfl⟩

theorem Extends.length_le {db' : Database} (h : Extends db db') : db.rows.length ≤ db'.rows.length := by
  obtain ⟨f, -, hsub⟩ := h
  simpa using hsub.length_le

/-- The ids of the posts, newest first. -/
def recentIds (backwards : Bool) (db : Database) : List Int64 := (db.recentPost backwards).map Row.id

/-- The ids keep their order; there may be others between them. -/
theorem Extends.recentIds {db' : Database} (h : Extends db db') :
    (db.recentIds backwards).Sublist (db'.recentIds backwards) := by
  obtain ⟨f, hf, hsub⟩ := h
  have hscan : ((db.scanned backwards).map f).Sublist (db'.scanned backwards) := by
    cases backwards with
    | true => simpa [scanned, ← List.map_reverse] using hsub.reverse
    | false => exact hsub
  have hrank := @Ranking.byKey_sublist Row (fun r => r.uploadDate.toInt) _ _ hscan
  rw [@Ranking.byKey_map Row Row (fun r => r.uploadDate.toInt) _ _ fun r => by rw [(hf r).2]] at hrank
  have hids := hrank.map Row.id
  have hkeep : Row.id ∘ f = Row.id := funext fun r => (hf r).1
  rwa [List.map_map, hkeep] at hids

end Database

/-! ## Reading all pages -/

namespace Reading

open Database

variable {r : Reading}

/-- The rows of the pages that were not asked for yet. -/
def rest (backwards : Bool) (r : Reading) : List Row :=
  (r.db.recentPost backwards).drop (pageSize * r.page)

/-- The post with this id was read, or is on a page that was not asked for yet. -/
def Covers (backwards : Bool) (id : Int64) (r : Reading) : Prop :=
  id ∈ r.posts.map Post.id ∨ id ∈ (r.rest backwards).map Row.id

/-- What holds in a run: the page before the next one was not empty, and after an empty page there is
nothing left. -/
structure Sound (backwards : Bool) (ids : List Int64) (r : Reading) : Prop where
  page : pageSize * r.page < r.db.rows.length + pageSize
  covers : ∀ id ∈ ids, r.Covers backwards id
  ended : r.ended = true → ∀ id ∈ ids, id ∈ r.posts.map Post.id

theorem Covers.write {id : Int64} (h : r.Covers backwards id) (w : Write) :
    Covers backwards id { r with db := r.db.write P w } := by
  refine h.imp_right fun hmem => ?_
  have hsub : (r.db.recentIds backwards).Sublist ((r.db.write P w).recentIds backwards) :=
    (extends_write r.db w).recentIds
  rw [rest, List.map_drop] at hmem ⊢
  exact (hsub.drop _).subset hmem

/-- What is left is the next page and what is left then. -/
theorem rest_eq (r : Reading) :
    r.rest backwards = Paging.page pageSize (r.db.recentPost backwards) r.page ++
      (r.db.recentPost backwards).drop (pageSize * (r.page + 1)) := by
  rw [rest, Paging.page, Nat.mul_succ, ← List.drop_drop, List.take_append_drop]

theorem Covers.next {id : Int64} {post : Post} {posts : List Post} (h : r.Covers backwards id)
    (hpage : (Paging.page pageSize (r.db.recentPost backwards) r.page).map Row.scan = post :: posts) :
    Covers backwards id { r with page := r.page + 1, posts := r.posts ++ post :: posts } := by
  rcases h with hread | hrest
  · left
    rw [List.map_append]
    exact List.mem_append_left _ hread
  · rw [rest_eq, List.map_append, List.mem_append] at hrest
    refine hrest.imp_left fun hmem => ?_
    rw [← hpage, List.map_append, List.map_map]
    exact List.mem_append_right _ hmem

/-- A page is empty only when nothing is left. -/
theorem rest_eq_nil (h : Paging.page pageSize (r.db.recentPost backwards) r.page = []) :
    r.rest backwards = [] := by
  have hpos : pageSize ≠ 0 := by decide
  rw [Paging.page, List.take_eq_nil_iff] at h
  exact h.resolve_left hpos

theorem Sound.write {ids : List Int64} (h : r.Sound backwards ids) (w : Write) :
    Sound backwards ids { r with db := r.db.write P w } where
  page := by
    have hlen := (extends_write (P := P) r.db w).length_le
    have := h.page
    show pageSize * r.page < (r.db.write P w).rows.length + pageSize
    omega
  covers id hid := (h.covers id hid).write w
  ended := h.ended

theorem queryRecent_eq {ids : List Int64} (h : r.Sound backwards ids)
    (hlen : r.db.rows.length + pageSize ≤ 2 ^ 63) :
    r.db.queryRecent backwards (Int64.ofNat r.page) none =
      .ok ((Paging.page pageSize (r.db.recentPost backwards) r.page).map Row.scan) := by
  rw [queryRecent, paginatedQuery_eq (h.page.trans_le hlen), Paging.page_map]

/-- After a page with posts there can be another one. -/
theorem page_lt_of_ne_nil (h : Paging.page pageSize (r.db.recentPost backwards) r.page ≠ []) :
    pageSize * (r.page + 1) < r.db.rows.length + pageSize := by
  have hlt : pageSize * r.page < (r.db.recentPost backwards).length := by
    by_contra hle
    exact h (Paging.page_eq_nil (not_lt.mp hle))
  rw [(recentPost_perm r.db).length_eq] at hlt
  rw [Nat.mul_succ]
  omega

theorem Sound.next {ids : List Int64} (h : r.Sound backwards ids) (hended : r.ended = false)
    (hlen : r.db.rows.length + pageSize ≤ 2 ^ 63) :
    (r.step P backwards (.next none)).Sound backwards ids := by
  have hquery := queryRecent_eq h hlen
  cases hposts : (Paging.page pageSize (r.db.recentPost backwards) r.page).map Row.scan with
  | nil =>
    simp only [Reading.step, hended, hquery, hposts, Bool.false_eq_true, if_false]
    have hrest := rest_eq_nil (List.map_eq_nil_iff.mp hposts)
    refine ⟨h.page, h.covers, fun _ id hid => ?_⟩
    have hcover := h.covers id hid
    rw [Covers, hrest] at hcover
    simpa using hcover
  | cons post posts =>
    simp only [Reading.step, hended, hquery, hposts, Bool.false_eq_true, if_false]
    refine ⟨@page_lt_of_ne_nil backwards r fun hnil => ?_,
      fun id hid => (h.covers id hid).next hposts, fun hend => ?_⟩
    · rw [hnil] at hposts
      cases hposts
    · cases hend

/-- An access that does not fail while rows are read. -/
def Access.Whole (a : Access) : Prop := ∀ read, a ≠ .next (some (.rows read))

theorem Sound.step {ids : List Int64} (h : r.Sound backwards ids)
    (hlen : r.db.rows.length + pageSize ≤ 2 ^ 63) {a : Access} (ha : a.Whole) :
    (r.step P backwards a).Sound backwards ids := by
  cases a with
  | write w => exact h.write w
  | next fails =>
    cases hended : r.ended with
    | true =>
      simp only [Reading.step, hended, if_true]
      exact h
    | false =>
      cases fails with
      | none => exact h.next hended hlen
      | some failure =>
        cases failure with
        | query err =>
          simp only [Reading.step, hended, Bool.false_eq_true, if_false]
          exact h
        | rows read => exact absurd rfl (ha read)

theorem length_le_step (r : Reading) (a : Access) :
    r.db.rows.length ≤ (r.step P backwards a).db.rows.length := by
  cases a with
  | write w => exact (extends_write r.db w).length_le
  | next fails =>
    simp only [Reading.step]
    split
    · exact le_refl _
    · split <;> exact le_refl _

theorem length_le_run (r : Reading) (accesses : List Access) :
    r.db.rows.length ≤ (Runs.run (Reading.step P backwards) r accesses).db.rows.length :=
  Runs.run_invariant (I := fun r' => r.db.rows.length ≤ r'.db.rows.length) (le_refl _)
    (fun r' a h => h.trans (length_le_step r' a)) accesses

/-- The table is small enough at the end, so it was at each step. -/
theorem Sound.run {ids : List Int64} (h : r.Sound backwards ids) (accesses : List Access)
    (hwhole : ∀ a ∈ accesses, a.Whole)
    (hlen : (Runs.run (Reading.step P backwards) r accesses).db.rows.length + pageSize ≤ 2 ^ 63) :
    (Runs.run (Reading.step P backwards) r accesses).Sound backwards ids := by
  induction accesses generalizing r with
  | nil => exact h
  | cons a accesses ih =>
    have hstart := @length_le_run P backwards r (a :: accesses)
    exact ih (h.step (by omega) (hwhole a (.head _))) (fun a' ha' => hwhole a' (.tail _ ha')) hlen

theorem sound_start (db : Database) : (start db).Sound backwards (db.rows.map Row.id) where
  page := by
    show pageSize * 0 < db.rows.length + pageSize
    have : 0 < pageSize := by decide
    omega
  covers id hid := by
    right
    rw [rest, start, Nat.mul_zero, List.drop_zero]
    exact ((recentPost_perm db).map Row.id).mem_iff.mpr hid
  ended hended := by cases hended

/-- **Paging through the recent posts misses none of them.** Whatever is stored or changed between the
calls, and however often a query is refused, whoever asks for one page after the other until one is empty has got
every post that was there at the start, if no query fails while its rows are read. -/
theorem recent_misses_nothing (P : Prims) (backwards : Bool) (db : Database) (accesses : List Access)
    (hwhole : ∀ a ∈ accesses, ∀ read, a ≠ .next (some (.rows read)))
    (hlen : (Runs.run (Reading.step P backwards) (start db) accesses).db.rows.length + pageSize ≤ 2 ^ 63)
    (hended : (Runs.run (Reading.step P backwards) (start db) accesses).ended = true) :
    ∀ row ∈ db.rows,
      row.id ∈ (Runs.run (Reading.step P backwards) (start db) accesses).posts.map Post.id := by
  intro row hrow
  exact ((sound_start db).run accesses hwhole hlen).ended hended row.id (List.mem_map_of_mem hrow)

/-- The post is changed while someone reads, and a query is refused. With a failure in place of the first row the
reader takes the empty page for the end. -/
theorem recent_misses_nothing_one :
    ((1 : Int64) ∈ (Runs.run (Reading.step Prims.sample true) (start ⟨[sharedRow 1 2 3], 1⟩)
      [.next none, .write (.setSeeders 1 5 none), .next (some (.query "no such table")), .next none]).posts.map
        Post.id) ∧
    (Runs.run (Reading.step Prims.sample true) (start ⟨[sharedRow 1 2 3], 1⟩) [.next (some (.rows 0))]).ended = true ∧
    (Runs.run (Reading.step Prims.sample true) (start ⟨[sharedRow 1 2 3], 1⟩)
      [.next (some (.rows 0))]).posts.map Post.id = [] := by
  refine ⟨recent_misses_nothing Prims.sample true ⟨[sharedRow 1 2 3], 1⟩ _ (fun a ha read heq => ?_) (by decide)
    (by decide) (sharedRow 1 2 3) List.mem_cons_self, by decide, by decide⟩
  subst heq
  simp at ha

end Reading

end Zif.Data
