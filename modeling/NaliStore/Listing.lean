import NaliStore.Recovery
import Mathlib.Order.Bounds.Basic

/-!
# The page files of a directory

`alloc_new_ppage` puts the node, the shard and the number of a page into the name of its file,
`loadfiles` lists the directory of a node in whatever order the file system has, and
`recovery_logkv` takes the names apart again. The numbers come back whatever their widths are, and
the table and the page counters come out the same for every order: `listing_roundTrips`.
-/

namespace NaliStore

open ByteMem Runs StdString

variable {cfg : Config}

/-- The name of a page file in its directory. -/
def baseName (numaId hashId ppageId : ℕ) : List Char :=
  "nali_".toList ++ StdString.toString numaId ++ '_' :: StdString.toString hashId ++
    '_' :: StdString.toString ppageId

/-- The name of a page file in its directory. -/
def PageId.baseName (pg : PageId cfg) : List Char :=
  NaliStore.baseName pg.log.numa pg.log.hash pg.page

/-- `strcmp` with the names of the directory itself and its parent. -/
def isFile (entry : List Char) : Bool := entry ≠ ".".toList && entry ≠ "..".toList

/-- `loadfiles`, where `readdir` returns the entries one after the other. -/
def loadfiles (dirPath : List Char) (entries : List (List Char)) : List (List Char) :=
  (entries.filter isFile).map fun entry => dirPath ++ '/' :: entry

/-- A file is listed under the path it was created with. -/
theorem dirName_append_baseName (numaId hashId ppageId : ℕ) :
    dirName numaId ++ '/' :: baseName numaId hashId ppageId = pathName numaId hashId ppageId := by
  have h : ∀ dir N H P : List Char, dir ++ '/' :: ("nali_".toList ++ N ++ '_' :: H ++ '_' :: P) =
      dir ++ "/nali_".toList ++ N ++ '_' :: H ++ '_' :: P := by
    intro dir N H P
    simp
  exact h ..

/-- The listing of a directory of page files. -/
theorem loadfiles_eq {i : Fin numaNodeNum} {entries : List (List Char)} {files : List (PageId cfg)}
    (hnuma : ∀ pg ∈ files, pg.log.numa = i) (hentries : entries.filter isFile = files.map PageId.baseName) :
    loadfiles (dirName i) entries = files.map PageId.fileName := by
  rw [loadfiles, hentries, List.map_map]
  refine List.map_congr_left fun pg hpg => ?_
  rw [← hnuma pg hpg]
  exact dirName_append_baseName ..

namespace LogKV

variable {s : LogKV cfg} {pmem : PageId cfg → Option Mem} {files : Fin numaNodeNum → List (PageId cfg)}

/-- The files that are mapped are those of their node's directory. -/
theorem mem_flatMap_files (hfiles : ∀ i, ∀ pg ∈ files i, pg.log.numa = i) (pg : PageId cfg) :
    pg ∈ (List.finRange numaNodeNum).flatMap files ↔ pg ∈ files pg.log.numa := by
  rw [List.mem_flatMap]
  constructor
  · rintro ⟨i, -, hpg⟩
    rwa [hfiles i pg hpg]
  · intro hpg
    exact ⟨pg.log.numa, List.mem_finRange _, hpg⟩

/-- The page counter of a log with a file is the largest page number. -/
theorem Mapped.isGreatest {done : List (PageId cfg)} (h : Mapped pmem done s) {l : LogId cfg}
    (hl : ∃ pg ∈ done, pg.log = l) :
    IsGreatest {p | (⟨l, p⟩ : PageId cfg) ∈ done} (s.ppage l).ppageId := by
  rcases h.newest l with ⟨-, hnone⟩ | ⟨hin, -, hle⟩
  · obtain ⟨pg, hpg, hlog⟩ := hl
    exact absurd hlog (hnone pg hpg)
  · exact ⟨hin, fun p hp => hle ⟨l, p⟩ hp rfl⟩

/-- **The table of a restart.** After all listed files have been mapped, in the order of the
listing, a file's mapping is in the slot of its own numbers, the other slots are null, and the page
counters are the largest page numbers. -/
theorem exists_mapFiles (pmem : PageId cfg → Option Mem)
    (hfiles : ∀ i, ∀ pg ∈ files i, pg.log.numa = i ∧ pg.page < maxLofFileId) :
    ∃ s, (LogKV.new true pmem >>= fun log => log.mapFiles files) = .ok s ∧
      (∀ pg, s.startAddrArr pg = if pg ∈ files pg.log.numa then some pg else none) ∧
      ∀ l, (∃ pg ∈ files l.numa, pg.log = l) →
        IsGreatest {p | (⟨l, p⟩ : PageId cfg) ∈ files l.numa} (s.ppage l).ppageId := by
  obtain ⟨s, hs, hmapped⟩ := mapFiles_mapped pmem hfiles
  have hmem := mem_flatMap_files fun i pg hpg => (hfiles i pg hpg).1
  refine ⟨s, ?_, fun pg => ?_, fun l hl => ?_⟩
  · rw [new_recovery]
    exact hs
  · rw [hmapped.table]
    simp only [hmem]
  · obtain ⟨pg, hpg, rfl⟩ := hl
    have hgreatest := hmapped.isGreatest ⟨pg, (hmem pg).mpr hpg, rfl⟩
    simpa only [hmem] using hgreatest

end LogKV

/-- **Page file names round-trip.** A path is taken apart into the numbers it was built from, for
all numbers that fit in an `int`; and from any set of page files, listed in any order, the table and
the page counters are rebuilt. -/
theorem listing_roundTrips :
    (∀ numaId hashId ppageId : ℕ, numaId < 2 ^ 31 → hashId < 2 ^ 31 → ppageId < 2 ^ 31 →
      parseFileName (pathName numaId hashId ppageId) = some ((hashId : ℤ), (ppageId : ℤ))) ∧
    ∀ (cfg : Config) (pmem : PageId cfg → Option Mem) (entries : Fin numaNodeNum → List (List Char))
      (files : Fin numaNodeNum → List (PageId cfg)),
      (∀ i, (entries i).filter isFile = (files i).map PageId.baseName) →
      (∀ i, ∀ pg ∈ files i, pg.log.numa = i ∧ pg.page < maxLofFileId) →
      (∀ i : Fin numaNodeNum, loadfiles (dirName i) (entries i) = (files i).map PageId.fileName) ∧
      ∃ s, (LogKV.new true pmem >>= fun log => log.mapFiles files) = .ok s ∧
        (∀ pg, s.startAddrArr pg = if pg ∈ files pg.log.numa then some pg else none) ∧
        ∀ l, (∃ pg ∈ files l.numa, pg.log = l) →
          IsGreatest {p | (⟨l, p⟩ : PageId cfg) ∈ files l.numa} (s.ppage l).ppageId := by
  refine ⟨fun _ _ _ hnuma hhash hpage => parseFileName_pathName hnuma hhash hpage, ?_⟩
  intro cfg pmem entries files hentries hfiles
  exact ⟨fun i => loadfiles_eq (fun pg hpg => (hfiles i pg hpg).1) (hentries i),
    LogKV.exists_mapFiles pmem hfiles⟩

/-- Two pages of one log, listed with the newer one first. -/
theorem listing_roundTrips_two : ∃ s : LogKV oneShard,
    (LogKV.new true (fun _ => none) >>= fun log => log.mapFiles fun i =>
      if i = 0 then [⟨⟨0, 0, by decide⟩, 1⟩, ⟨⟨0, 0, by decide⟩, 0⟩] else []) = .ok s ∧
    s.startAddrArr ⟨⟨0, 0, by decide⟩, 1⟩ = some ⟨⟨0, 0, by decide⟩, 1⟩ ∧
    s.startAddrArr ⟨⟨1, 0, by decide⟩, 1⟩ = none := by
  obtain ⟨-, s, hs, htable, -⟩ := listing_roundTrips.2 oneShard (fun _ => none)
    (fun i => if i = 0 then [".".toList, "nali_0_0_1".toList, "..".toList, "nali_0_0_0".toList] else [])
    (fun i => if i = 0 then [⟨⟨0, 0, by decide⟩, 1⟩, ⟨⟨0, 0, by decide⟩, 0⟩] else [])
    (by decide +kernel) (by decide +kernel)
  exact ⟨s, hs, htable _, htable _⟩

end NaliStore
