import Mathlib.Data.List.TakeWhile
import Yfs.Client.Calls
import Yfs.Lib.Codec

/-!
# Listing a directory page by page

`fuseserver_readdir` of `fuse.cc` builds the whole listing for every page, and sends the part
of it that starts at the offset it was asked for.  A record carries the offset at which it
ends, and a reader goes on there after the last record that came whole.

libfuse is a parameter: how it writes a record, and that a record can be read back and told
from one that was cut.

The pages may have any sizes, as long as one record fits.  The reader knows nothing of the
directory: it goes on at the offset that the last whole record carried, and stops at the first
empty reply.

* `dirbufAdd`, `replyBufLimited`, `fuseserverReaddir` — the code.
* `readPages` — the reader.
* `dirbuf_eq_flatMap` — the listing is the records in a row, each with the offset of its end.
* `paged_listing_complete` — the reader gets all the entries, each once and in their order.
-/

namespace Yfs.Client

open Storage

/-! ## Records -/

/-- What a record of libfuse holds, with its `u64` fields. -/
structure FuseDirent where
  ino : UInt64
  off : UInt64
  name : List UInt8
  deriving DecidableEq, Repr

/-- **libfuse**: `fuse_dirent_size` for a name of that length, and the records that
`fuse_add_dirent` writes.  A record holds names without a terminator whose length is an
`unsigned int`; header and padding take at most 31 bytes. -/
structure Libfuse where
  direntSize : ℕ → ℕ
  records : Codec FuseDirent
  valid_iff : ∀ r, records.Valid r ↔ (0 ∉ r.name ∧ r.name.length < 2 ^ 32)
  length_encode : ∀ r, records.Valid r → (records.encode r).length = direntSize r.name.length
  framed : records.Framed
  direntSize_le : ∀ n, direntSize n ≤ n + 31

/-- The C string in a `std::string`: `c_str()` as far as `strlen` goes. -/
def cString (name : List UInt8) : List UInt8 := name.takeWhile (· ≠ 0)

/-! ## The code -/

/-- `dirbuf_add`: one more record, with the size of the buffer after it as its offset. -/
def dirbufAdd (lib : Libfuse) (b : List UInt8) (name : List UInt8) (ino : ℕ) : List UInt8 :=
  let size := b.length + lib.direntSize (cString name).length
  b ++ lib.records.encode ⟨.ofNat ino, .ofNat size, cString name⟩

/-- `reply_buf_limited`. -/
def replyBufLimited (buf : List UInt8) (off maxsize : ℕ) : List UInt8 :=
  if off < buf.length then (buf.drop off).take (min (buf.length - off) maxsize) else []

/-- The loop of `fuseserver_readdir` over the entries. -/
def dirbuf (lib : Libfuse) (entries : List Dirent) : List UInt8 :=
  entries.foldl (fun b ent => dirbufAdd lib b ent.name ent.inum) []

/-- `ENOTDIR`. -/
def enotdir : ℤ := 20

/-- `fuseserver_readdir`: an error number, or the bytes of the reply. -/
def fuseserverReaddir (lib : Libfuse) (ino size off : ℕ) : Routine (Except ℤ (List UInt8)) :=
  (Routine.isType tDir ino).bind fun isdir =>
    if !isdir then .ret (.error enotdir)
    else (Routine.readdir ino).bind fun entries =>
      .ret (.ok (replyBufLimited (dirbuf lib entries) off size))

/-! ## The reader -/

/-- The reply to the request for a page. -/
def reply (lib : Libfuse) (ino size off : ℕ) (answers : ℕ → Answer) :
    Option (Except ℤ (List UInt8)) :=
  ((fuseserverReaddir lib ino size off).calls answers 0).result

/-- The records that came whole. -/
def received (lib : Libfuse) : Option (Except ℤ (List UInt8)) → List FuseDirent
  | some (.ok bytes) => lib.records.wholes bytes.length bytes
  | _ => []

/-- **The reader** after `n` pages: what it has kept, and the offset of the last record.  Page
`k` has size `sizes k` and is served with the answers `answers k`. -/
def readPages (lib : Libfuse) (ino : ℕ) (sizes : ℕ → ℕ) (answers : ℕ → ℕ → Answer) :
    ℕ → List FuseDirent × ℕ
  | 0 => ([], 0)
  | n + 1 =>
      let (kept, off) := readPages lib ino sizes answers n
      let page := received lib (reply lib ino (sizes n) off (answers n))
      (kept ++ page, (page.getLast?.map fun r => r.off.toNat).getD off)

/-- The extent client shows this directory to one run of `fuseserver_readdir`, which decodes
its string to `entries`. -/
structure ShowsDirectory (content : List UInt8) (entries : List Dirent) (answers : ℕ → Answer) :
    Prop where
  isdir : (answers 0).status = 0 ∧ (answers 0).attr.type = tDir
  got : (answers 1).status = 0 ∧ (answers 1).buf = content
  type : (answers 2).attr.type = tDir
  decodes : decodeDir (answers 3).bytes content = entries

/-- A page of a directory. -/
theorem ShowsDirectory.reply_eq {content : List UInt8} {entries : List Dirent}
    {answers : ℕ → Answer} (shows : ShowsDirectory content entries answers) (lib : Libfuse)
    (ino size off : ℕ) :
    reply lib ino size off answers =
      some (.ok (replyBufLimited (dirbuf lib entries) off size)) := by
  have isdir : (Routine.isType tDir ino).calls answers 0 =
      ([.getattr ino (answers 0).status (answers 0).attr], some (true, 1)) := by
    rw [Routine.isType, Routine.calls_acquire, Routine.calls_getattr,
      if_neg (not_not.mpr shows.isdir.1), Routine.calls_release, Routine.calls_ret, decide_eq_true
      shows.isdir.2]
    rfl
  have listed : ((Routine.readdir ino).calls answers 1).2 = some (entries, 4) := by
    rw [Routine.readdir, Routine.calls_acquire, Routine.calls_bind, Routine.calls_readdirNoSeria,
      if_neg (not_not.mpr shows.got.1), if_neg (not_not.mpr shows.type), shows.got.2, shows.decodes]
    rfl
  have paged : (((Routine.readdir ino).bind fun entries =>
      .ret (.ok (replyBufLimited (dirbuf lib entries) off size))).calls answers 1).result =
        some (Except.ok (ε := ℤ) (replyBufLimited (dirbuf lib entries) off size)) := by
    rw [Routine.calls_bind, CallTrace.result, CallTrace.andThen, listed]
    rfl
  rw [reply, fuseserverReaddir, Routine.calls_bind, isdir, CallTrace.andThen_some]
  exact paged

/-! ## The listing -/

variable (lib : Libfuse)

/-- The records of the listing, from offset `pos` on. -/
def listing (lib : Libfuse) : ℕ → List Dirent → List FuseDirent
  | _, [] => []
  | pos, ent :: rest =>
      let next := pos + lib.direntSize (cString ent.name).length
      ⟨.ofNat ent.inum, .ofNat next, cString ent.name⟩ :: listing lib next rest

/-- Its size in bytes. -/
def listingSize (lib : Libfuse) (entries : List Dirent) : ℕ :=
  (entries.map fun ent => lib.direntSize (cString ent.name).length).sum

theorem listingSize_cons (ent : Dirent) (rest : List Dirent) :
    listingSize lib (ent :: rest) =
      lib.direntSize (cString ent.name).length + listingSize lib rest := by
  rw [listingSize, List.map_cons, List.sum_cons, listingSize]

theorem listingSize_append (front rest : List Dirent) :
    listingSize lib (front ++ rest) = listingSize lib front + listingSize lib rest := by
  rw [listingSize, List.map_append, List.sum_append, listingSize, listingSize]

theorem listing_append (pos : ℕ) (front rest : List Dirent) :
    listing lib pos (front ++ rest) =
      listing lib pos front ++ listing lib (pos + listingSize lib front) rest := by
  induction front generalizing pos with
  | nil => rfl
  | cons ent front ih =>
      rw [List.cons_append, listing, ih, listing, listingSize_cons, Nat.add_assoc, List.cons_append]

theorem listing_take (pos j : ℕ) (entries : List Dirent) :
    (listing lib pos entries).take j = listing lib pos (entries.take j) := by
  induction entries generalizing pos j with
  | nil => rw [listing, List.take_nil, List.take_nil, listing]
  | cons ent rest ih =>
      cases j with
      | zero => rfl
      | succ j => rw [listing, List.take_succ_cons, ih, List.take_succ_cons, listing]

/-- The last record tells where the listing ends. -/
theorem off_getLast? (pos : ℕ) {entries : List Dirent} (some_entry : entries ≠ []) :
    (listing lib pos entries).getLast?.map FuseDirent.off =
      some (.ofNat (pos + listingSize lib entries)) := by
  induction entries generalizing pos with
  | nil => exact absurd rfl some_entry
  | cons ent rest ih =>
      by_cases last : rest = []
      · subst last
        rfl
      · have more := ih (pos + lib.direntSize (cString ent.name).length) last
        rw [listing, List.getLast?_cons]
        obtain ⟨r, found, off⟩ := Option.map_eq_some_iff.mp more
        rw [found, Option.getD_some, Option.map_some, off, listingSize_cons, Nat.add_assoc]

theorem zero_notMem_cString (name : List UInt8) : 0 ∉ cString name := by
  intro mem
  have ne := List.mem_takeWhile_imp mem
  simp at ne

theorem length_cString_le (name : List UInt8) : (cString name).length ≤ name.length :=
  (List.takeWhile_sublist _).length_le

/-- A name without a terminator is its own C string. -/
theorem cString_eq_self {name : List UInt8} (clean : 0 ∉ name) : cString name = name := by
  rw [cString, List.takeWhile_eq_self_iff]
  intro byte mem
  have ne : byte ≠ 0 := fun zero => clean (zero ▸ mem)
  simpa using ne

/-- The records are such that libfuse can write. -/
theorem valid_listing {entries : List Dirent} (short : ∀ ent ∈ entries, ent.name.length < 2 ^ 16)
    (pos : ℕ) : ∀ r ∈ listing lib pos entries, lib.records.Valid r := by
  induction entries generalizing pos with
  | nil => nofun
  | cons ent rest ih =>
      intro r mem
      rcases List.mem_cons.mp mem with rfl | mem
      · rw [lib.valid_iff]
        have length := length_cString_le ent.name
        have bound := short ent List.mem_cons_self
        exact ⟨zero_notMem_cString ent.name, length.trans_lt (bound.trans (by decide))⟩
      · exact ih (fun e mem => short e (List.mem_cons_of_mem _ mem)) _ r mem

theorem length_flatMap_listing {entries : List Dirent}
    (short : ∀ ent ∈ entries, ent.name.length < 2 ^ 16) (pos : ℕ) :
    ((listing lib pos entries).flatMap lib.records.encode).length = listingSize lib entries := by
  induction entries generalizing pos with
  | nil => rfl
  | cons ent rest ih =>
      have valid := valid_listing lib short pos _ List.mem_cons_self
      rw [listing, List.flatMap_cons, List.length_append, lib.length_encode _ valid,
        ih (fun e mem => short e (List.mem_cons_of_mem _ mem)), listingSize_cons]

/-- **The listing is its records in a row.** -/
theorem dirbuf_eq_flatMap {entries : List Dirent}
    (short : ∀ ent ∈ entries, ent.name.length < 2 ^ 16) :
    dirbuf lib entries = (listing lib 0 entries).flatMap lib.records.encode := by
  -- what the loop adds to the buffer it has so far
  have adds : ∀ (entries : List Dirent) (b : List UInt8),
      (∀ ent ∈ entries, ent.name.length < 2 ^ 16) →
      entries.foldl (fun b ent => dirbufAdd lib b ent.name ent.inum) b =
        b ++ (listing lib b.length entries).flatMap lib.records.encode := by
    intro entries
    induction entries with
    | nil =>
        intro b _
        exact (List.append_nil b).symm
    | cons ent rest ih =>
        intro b short
        have valid := valid_listing lib short b.length _ List.mem_cons_self
        rw [List.foldl_cons, ih _ fun e mem => short e (List.mem_cons_of_mem _ mem), listing,
          List.flatMap_cons, dirbufAdd, List.length_append, lib.length_encode _ valid,
          List.append_assoc]
  exact adds entries [] short

/-! ## What a directory can hold -/

/-- `name_length` is an `unsigned short`. -/
theorem length_name_of_mem_decodeDir {stack : ℕ → UInt8} {content : List UInt8} {ent : Dirent}
    (mem : ent ∈ decodeDir stack content) : ent.name.length < 2 ^ 16 := by
  obtain ⟨i, below, rfl⟩ := List.mem_map.mp mem
  have whole : ((content.drop (direntSize * i)).take direntSize).length = direntSize := by
    have below := List.mem_range.mp below
    have := Nat.mod_le content.length (2 ^ 32)
    rw [List.length_take, List.length_drop]
    simp only [direntSize] at *
    omega
  rw [length_name_decodeDirent _ whole]
  have low := (((content.drop (direntSize * i)).take direntSize).getD 72 0).toNat_lt
  have high := (((content.drop (direntSize * i)).take direntSize).getD 73 0).toNat_lt
  unfold nameLength
  omega

theorem listingSize_le {entries : List Dirent} (short : ∀ ent ∈ entries, ent.name.length < 2 ^ 16) :
    listingSize lib entries ≤ 2 ^ 17 * entries.length := by
  induction entries with
  | nil => exact Nat.le_refl 0
  | cons ent rest ih =>
      have others := ih fun e mem => short e (List.mem_cons_of_mem _ mem)
      have bound := short ent List.mem_cons_self
      have cut := length_cString_le ent.name
      have size := lib.direntSize_le (cString ent.name).length
      rw [listingSize_cons, List.length_cons]
      omega

/-- The offsets of a listing fit into a record. -/
theorem listingSize_lt (stack : ℕ → UInt8) (content : List UInt8) :
    listingSize lib (decodeDir stack content) < 2 ^ 64 := by
  have size := listingSize_le lib fun ent (mem : ent ∈ decodeDir stack content) =>
    length_name_of_mem_decodeDir mem
  have count : (decodeDir stack content).length < 2 ^ 32 := by
    rw [decodeDir, List.length_map, List.length_range]
    simp only [direntSize]
    omega
  omega

/-! ## The pages -/

section Pages

variable (ino : ℕ) {content : List UInt8} {entries : List Dirent} {sizes : ℕ → ℕ}
  {answers : ℕ → ℕ → Answer}

/-- The reply at an offset where a record ends. -/
theorem replyBufLimited_listing {front rest : List Dirent}
    (short : ∀ ent ∈ front ++ rest, ent.name.length < 2 ^ 16) (size : ℕ) :
    replyBufLimited (dirbuf lib (front ++ rest)) (listingSize lib front) size =
      ((listing lib (listingSize lib front) rest).flatMap lib.records.encode).take size := by
  have shortFront : ∀ ent ∈ front, ent.name.length < 2 ^ 16 := fun ent mem =>
    short ent (List.mem_append_left _ mem)
  rw [dirbuf_eq_flatMap lib short, listing_append, List.flatMap_append, Nat.zero_add]
  -- the part before the offset is the records of `front`
  rw [replyBufLimited, List.length_append, length_flatMap_listing lib shortFront]
  have skipped : ((listing lib 0 front).flatMap lib.records.encode ++
      (listing lib (listingSize lib front) rest).flatMap lib.records.encode).drop
        (listingSize lib front) =
      (listing lib (listingSize lib front) rest).flatMap lib.records.encode := by
    rw [← length_flatMap_listing lib shortFront 0, List.drop_left]
  rw [skipped, Nat.add_sub_cancel_left]
  split
  next => rw [← List.take_take, List.take_of_length_le (List.length_take_le' _ _)]
  next none =>
    have empty : (listing lib (listingSize lib front) rest).flatMap lib.records.encode = [] :=
      List.length_eq_zero_iff.mp (by omega)
    rw [empty, List.take_nil]

/-- **One page**: the records of the next entries, at least one if there is one left. -/
theorem received_page {front rest : List Dirent} {off n : ℕ}
    (shows : ShowsDirectory content (front ++ rest) (answers n))
    (at_end : off = listingSize lib front)
    (large : ∀ ent ∈ front ++ rest, lib.direntSize (cString ent.name).length ≤ sizes n) :
    ∃ j, received lib (reply lib ino (sizes n) off (answers n)) = listing lib off (rest.take j) ∧
      (rest ≠ [] → 0 < j) := by
  have short : ∀ ent ∈ front ++ rest, ent.name.length < 2 ^ 16 := by
    intro ent mem
    rw [← shows.decodes] at mem
    exact length_name_of_mem_decodeDir mem
  have valid := valid_listing lib
    (fun ent mem => short ent (List.mem_append_right front mem)) off
  obtain ⟨j, wholes, first⟩ := Codec.wholes_take lib.framed valid (sizes n) le_rfl
  refine ⟨j, ?_, fun more => ?_⟩
  · rw [shows.reply_eq, at_end, replyBufLimited_listing lib short, received, ← at_end, wholes,
      listing_take]
  · obtain ⟨ent, others, rfl⟩ := List.exists_cons_of_ne_nil more
    refine first _ _ rfl ?_
    rw [lib.length_encode _ (valid _ List.mem_cons_self)]
    exact large ent (List.mem_append_right _ List.mem_cons_self)

/-- What the reader has after a page. -/
theorem readPages_succ {front rest : List Dirent} {n : ℕ}
    (shows : ShowsDirectory content (front ++ rest) (answers n))
    (large : ∀ ent ∈ front ++ rest, lib.direntSize (cString ent.name).length ≤ sizes n)
    (before : readPages lib ino sizes answers n = (listing lib 0 front, listingSize lib front)) :
    ∃ j, readPages lib ino sizes answers (n + 1) =
        (listing lib 0 (front ++ rest.take j), listingSize lib (front ++ rest.take j)) ∧
      (rest ≠ [] → 0 < j ∧
        received lib (reply lib ino (sizes n) (listingSize lib front) (answers n)) ≠ []) := by
  obtain ⟨j, page, first⟩ := received_page lib ino shows rfl large
  have small : listingSize lib (front ++ rest.take j) < 2 ^ 64 := by
    have total := listingSize_lt lib (answers n 3).bytes content
    rw [shows.decodes, ← List.take_append_drop j rest, ← List.append_assoc, listingSize_append]
      at total
    omega
  refine ⟨j, ?_, fun more => ⟨first more, ?_⟩⟩
  · rw [readPages, before]
    dsimp only
    rw [page, listing_append, Nat.zero_add]
    congr 1
    by_cases none : rest.take j = []
    · rw [none, List.append_nil]
      rfl
    · have last := off_getLast? lib (listingSize lib front) none
      obtain ⟨r, found, off⟩ := Option.map_eq_some_iff.mp last
      rw [found, Option.map_some, Option.getD_some, off, listingSize_append] at *
      rw [UInt64.toNat_ofNat']
      exact Nat.mod_eq_of_lt small
  · rw [page]
    obtain ⟨ent, others, rfl⟩ := List.exists_cons_of_ne_nil more
    obtain ⟨j, rfl⟩ := Nat.exists_eq_succ_of_ne_zero (first more).ne'
    exact List.cons_ne_nil _ _

/-- From a place between two entries on, the reader gets to the end. -/
theorem readPages_reaches_end (shows : ∀ n, ShowsDirectory content entries (answers n))
    (large : ∀ n, ∀ ent ∈ entries, lib.direntSize (cString ent.name).length ≤ sizes n) :
    ∀ (left : ℕ) (front rest : List Dirent) (n : ℕ), rest.length ≤ left → entries = front ++ rest →
      readPages lib ino sizes answers n = (listing lib 0 front, listingSize lib front) →
      ∃ m, n ≤ m ∧
        readPages lib ino sizes answers m = (listing lib 0 entries, listingSize lib entries) ∧
        ∀ k, n ≤ k → k < m → received lib (reply lib ino (sizes k)
          (readPages lib ino sizes answers k).2 (answers k)) ≠ [] := by
  intro left
  -- on the entries that are left; every page takes at least one of them
  induction left with
  | zero =>
      intro front rest n length split before
      obtain rfl : rest = [] := List.length_eq_zero_iff.mp (Nat.le_zero.mp length)
      rw [List.append_nil] at split
      subst split
      exact ⟨n, le_rfl, before,
        fun k below above => absurd (below.trans_lt above) (Nat.lt_irrefl n)⟩
  | succ left ih =>
      intro front rest n length split before
      by_cases done : rest = []
      · subst done
        rw [List.append_nil] at split
        subst split
        exact ⟨n, le_rfl, before,
          fun k below above => absurd (below.trans_lt above) (Nat.lt_irrefl n)⟩
      · subst split
        obtain ⟨j, after, progress⟩ := readPages_succ lib ino (shows n) (large n) before
        obtain ⟨some_entry, page⟩ := progress done
        have shorter : (rest.drop j).length ≤ left := by
          rw [List.length_drop]
          have pos := List.length_pos_of_ne_nil done
          omega
        have split : front ++ rest = front ++ rest.take j ++ rest.drop j := by
          rw [List.append_assoc, List.take_append_drop]
        obtain ⟨m, below, finished, pages⟩ := ih _ _ (n + 1) shorter split after
        refine ⟨m, by omega, finished, fun k from_n below_m => ?_⟩
        rcases Nat.eq_or_lt_of_le from_n with rfl | later
        · rw [before]
          exact page
        · exact pages k later below_m

end Pages

/-- The entry in a record. -/
def FuseDirent.entry (r : FuseDirent) : Dirent := ⟨r.name, r.ino.toNat⟩

theorem map_entry_listing {entries : List Dirent} (small : ∀ ent ∈ entries, ent.inum < 2 ^ 64)
    (pos : ℕ) : (listing lib pos entries).map FuseDirent.entry =
      entries.map fun ent => ⟨cString ent.name, ent.inum⟩ := by
  induction entries generalizing pos with
  | nil => rfl
  | cons ent rest ih =>
      rw [listing, List.map_cons, ih fun e mem => small e (List.mem_cons_of_mem _ mem),
        List.map_cons, FuseDirent.entry, UInt64.toNat_ofNat',
        Nat.mod_eq_of_lt (small ent List.mem_cons_self)]

/-- **The pages of a listing lose and repeat nothing.**  While the directory stays as it is and
every page has room for every single record, the reader gets at least one record from each page
until it has all the entries, in their order and each once; the page after that is empty.
Names come as C strings, so those without a terminator in them come as they are. -/
theorem paged_listing_complete {ino : ℕ} {content : List UInt8}
    {entries : List Dirent} {sizes : ℕ → ℕ} {answers : ℕ → ℕ → Answer}
    (shows : ∀ n, ShowsDirectory content entries (answers n))
    (large : ∀ n, ∀ ent ∈ entries, lib.direntSize (cString ent.name).length ≤ sizes n) :
    ∃ n,
      (readPages lib ino sizes answers n).1.map FuseDirent.entry =
        entries.map (fun ent => ⟨cString ent.name, ent.inum⟩) ∧
      ((∀ ent ∈ entries, 0 ∉ ent.name) →
        (readPages lib ino sizes answers n).1.map FuseDirent.entry = entries) ∧
      (∀ k < n, received lib (reply lib ino (sizes k) (readPages lib ino sizes answers k).2
        (answers k)) ≠ []) ∧
      reply lib ino (sizes n) (readPages lib ino sizes answers n).2 (answers n) =
        some (.ok []) := by
  obtain ⟨n, -, finished, pages⟩ :=
    readPages_reaches_end lib ino shows large entries.length [] entries 0 le_rfl
      rfl rfl
  have small : ∀ ent ∈ entries, ent.inum < 2 ^ 64 := by
    intro ent mem
    rw [← (shows 0).decodes] at mem
    obtain ⟨i, -, rfl⟩ := List.mem_map.mp mem
    exact decodeDirent_inum_lt _ _
  have all : (readPages lib ino sizes answers n).1.map FuseDirent.entry =
      entries.map fun ent => ⟨cString ent.name, ent.inum⟩ := by
    rw [finished]
    exact map_entry_listing lib small 0
  refine ⟨n, all, fun clean => ?_, fun k below => pages k (Nat.zero_le k) below, ?_⟩
  · rw [all]
    refine (List.map_congr_left fun ent mem => ?_).trans (List.map_id entries)
    rw [cString_eq_self (clean ent mem), id]
  · have short : ∀ ent ∈ entries ++ [], ent.name.length < 2 ^ 16 := by
      intro ent mem
      rw [List.append_nil, ← (shows 0).decodes] at mem
      exact length_name_of_mem_decodeDir mem
    have last := replyBufLimited_listing lib short (sizes n)
    rw [List.append_nil] at last
    rw [(shows n).reply_eq, finished, last, listing, List.flatMap_nil, List.take_nil]

/-! ## The records of the Linux kernel -/

/-- A length, rounded up to eight bytes. -/
def aligned (n : ℕ) : ℕ := (n + 7) / 8 * 8

theorem le_aligned (n : ℕ) : n ≤ aligned n := by
  unfold aligned
  omega

/-- A `fuse_dirent`: inode, offset, length and type, and the name with its padding.  The type is
that of a `struct stat` of zeros. -/
def encodeFuseDirent (r : FuseDirent) : List UInt8 :=
  (Codec.word 8).encode r.ino.toNat ++ ((Codec.word 8).encode r.off.toNat ++
    ((Codec.word 4).encode r.name.length ++ ((Codec.word 4).encode 0 ++
      (r.name ++ List.replicate (aligned r.name.length - r.name.length) 0))))

/-- One record off the front, if it is there as a whole. -/
def decodeFuseDirent (bytes : List UInt8) : Option (FuseDirent × List UInt8) := do
  let (ino, bytes) ← (Codec.word 8).decode bytes
  let (off, bytes) ← (Codec.word 8).decode bytes
  let (namelen, bytes) ← (Codec.word 4).decode bytes
  let (_, bytes) ← (Codec.word 4).decode bytes
  if bytes.length < aligned namelen then none
  else some (⟨.ofNat ino, .ofNat off, bytes.take namelen⟩, bytes.drop (aligned namelen))

theorem decodeFuseDirent_encodeFuseDirent (r : FuseDirent) (rest : List UInt8)
    (valid : 0 ∉ r.name ∧ r.name.length < 2 ^ 32) :
    decodeFuseDirent (encodeFuseDirent r ++ rest) = some (r, rest) := by
  have ino := fun rest => (Codec.word 8).decode_encode r.ino.toNat rest r.ino.toNat_lt
  have off := fun rest => (Codec.word 8).decode_encode r.off.toNat rest r.off.toNat_lt
  have length := fun rest => (Codec.word 4).decode_encode r.name.length rest valid.2
  have type := fun rest => (Codec.word 4).decode_encode 0 rest (Nat.pow_pos (by decide))
  have pad := le_aligned r.name.length
  have whole : (r.name ++ List.replicate (aligned r.name.length - r.name.length) 0).length =
      aligned r.name.length := by
    rw [List.length_append, List.length_replicate]
    omega
  have enough : ¬ ((r.name ++ List.replicate (aligned r.name.length - r.name.length) 0 ++
      rest).length < aligned r.name.length) := by
    rw [List.length_append, whole]
    omega
  unfold decodeFuseDirent encodeFuseDirent
  simp only [List.append_assoc, Option.bind_eq_bind, ino, off, length, type, Option.bind_some]
  rw [← List.append_assoc, if_neg enough, List.drop_left' whole, List.append_assoc, List.take_left,
    UInt64.ofNat_toNat, UInt64.ofNat_toNat]

theorem length_encodeFuseDirent (r : FuseDirent) :
    (encodeFuseDirent r).length = 24 + aligned r.name.length := by
  have pad := le_aligned r.name.length
  simp only [encodeFuseDirent, Codec.word, List.length_append, Codec.length_leBytes,
    List.length_replicate]
  omega

/-- The records that Linux and libfuse agree on. -/
def linuxRecords : Codec FuseDirent where
  Valid := fun r => 0 ∉ r.name ∧ r.name.length < 2 ^ 32
  encode := encodeFuseDirent
  decode := decodeFuseDirent
  decode_encode := decodeFuseDirent_encodeFuseDirent

theorem linuxRecords_extends : linuxRecords.Extends := by
  intro bytes more r rest read
  obtain ⟨⟨ino, b₁⟩, read₁, read⟩ := Option.bind_eq_some_iff.mp read
  obtain ⟨⟨off, b₂⟩, read₂, read⟩ := Option.bind_eq_some_iff.mp read
  obtain ⟨⟨namelen, b₃⟩, read₃, read⟩ := Option.bind_eq_some_iff.mp read
  obtain ⟨⟨type, b₄⟩, read₄, read⟩ := Option.bind_eq_some_iff.mp read
  show decodeFuseDirent (bytes ++ more) = _
  unfold decodeFuseDirent
  simp only [Option.bind_eq_bind, Codec.word_extends 8 _ more _ _ read₁,
    Codec.word_extends 8 _ more _ _ read₂, Codec.word_extends 4 _ more _ _ read₃,
    Codec.word_extends 4 _ more _ _ read₄, Option.bind_some]
  dsimp only at read
  have pad := le_aligned namelen
  split at read
  next => cases read
  next enough =>
    obtain ⟨rfl, rfl⟩ := Prod.mk.inj (Option.some.inj read)
    rw [List.length_append, if_neg (by omega), List.take_append_of_le_length (by omega),
      List.drop_append_of_le_length (by omega)]

/-- libfuse on Linux. -/
def linuxFuse : Libfuse where
  direntSize := fun n => 24 + aligned n
  records := linuxRecords
  valid_iff := fun _ => Iff.rfl
  length_encode := fun r _ => length_encodeFuseDirent r
  framed := linuxRecords_extends.framed rfl
  direntSize_le := fun n => by
    unfold aligned
    omega

/-- A directory of two files, in pages of 40 bytes: one record and the beginning of the next. -/
theorem paged_listing_two_files : ∃ content, ∃ n,
    content = encodeDirent (fun _ => 7) ⟨[97], 2⟩ ++ encodeDirent (fun _ => 9) ⟨[98, 99], 3⟩ ∧
    (readPages linuxFuse 1 (fun _ => 40) (fun _ _ =>
      ⟨0, content, ⟨tDir, 0, 0, 0, 160⟩, 0, fun _ => 0⟩) n).1.map FuseDirent.entry =
        [⟨[97], 2⟩, ⟨[98, 99], 3⟩] := by
  have shows : ∀ _ : ℕ, ShowsDirectory
      (encodeDirent (fun _ => 7) ⟨[97], 2⟩ ++ encodeDirent (fun _ => 9) ⟨[98, 99], 3⟩)
      [⟨[97], 2⟩, ⟨[98, 99], 3⟩] fun _ => ⟨0, encodeDirent (fun _ => 7) ⟨[97], 2⟩ ++
        encodeDirent (fun _ => 9) ⟨[98, 99], 3⟩, ⟨tDir, 0, 0, 0, 160⟩, 0, fun _ => 0⟩ :=
    fun _ => ⟨⟨rfl, rfl⟩, ⟨rfl, rfl⟩, rfl, by decide +kernel⟩
  obtain ⟨n, -, all, -, -⟩ := paged_listing_complete linuxFuse shows
    (show ∀ _ : ℕ, ∀ ent ∈ [⟨[97], 2⟩, (⟨[98, 99], 3⟩ : Dirent)],
      linuxFuse.direntSize (cString ent.name).length ≤ 40 from fun _ => by decide +kernel)
  exact ⟨_, n, rfl, all (by decide)⟩

end Yfs.Client
