import Mathlib.Data.List.GetD
import OSLabs.Disk.Serving

/-! # The disk of the native machine

There the disk is a file that `stdio` has open for reading and writing. It may grow, and a
request reads all of its bytes or fails an assertion.
-/

namespace OSLabs.Disk.Native

open Boot (Memory)
open Lib (Run anyStep Transfer Served contents slice splice)

/-! ## Files -/

structure File where
  bytes : List UInt8
  pos : Nat

namespace File

/-- The byte at a place, and `0` behind the end. -/
def byteAt (fp : File) (k : Nat) : UInt8 := fp.bytes.getD k 0

/-- With `SEEK_SET`; for a negative offset the call fails and the position stays. -/
def fseek (fp : File) (offset : Int) : File :=
  if 0 ≤ offset then { fp with pos := offset.toNat } else fp

/-- With one item of `size` bytes: the return value, the buffer's memory and the file. -/
def fread (fp : File) (buf size : Nat) (mem : Memory) : Nat × Memory × File :=
  let got := min size (fp.bytes.length - fp.pos)
  (if size ≠ 0 ∧ got = size then 1 else 0,
    splice mem buf got fun i => fp.byteAt (fp.pos + i),
    { fp with pos := fp.pos + got })

/-- Bytes between the old end and the position become `0`. -/
def fwrite (fp : File) (buf size : Nat) (mem : Memory) : Nat × File :=
  if size = 0 then (0, fp)
  else
    (1, { bytes := slice (splice fp.byteAt fp.pos size fun i => mem (buf + i)) 0
            (max fp.bytes.length (fp.pos + size))
          pos := fp.pos + size })

end File

/-! ## From the source -/

inductive Fault where
  /-- The C standard gives the call no meaning. -/
  | undefined
  | assertion
  deriving DecidableEq, Repr

def intMul (i j : Int) : Except Fault Int :=
  if -0x80000000 ≤ i * j ∧ i * j < 0x80000000 then .ok (i * j) else .error .undefined

/-- What `__am_disk_init` computes for the size. -/
def diskSize (bytes : List UInt8) : Nat := (bytes.length + 511) / 512

/-- The part of `__am_disk_blkio` behind the call of `fseek`. -/
def transferAt (io : Blkio) (size : Nat) (mem : Memory) (fp : File) :
    Except Fault (Memory × Option File) :=
  if io.write then
    let (ret, fp) := fp.fwrite io.buf size mem
    if ret = 1 then .ok (mem, some fp) else .error .assertion
  else
    let (ret, mem, fp) := fp.fread io.buf size mem
    if ret = 1 then .ok (mem, some fp) else .error .assertion

/-- `fp` is null where there is no image. No buffer is as large as a negative size. -/
def amDiskBlkio (io : Blkio) (mem : Memory) (fp : Option File) :
    Except Fault (Memory × Option File) :=
  match fp with
  | none => .ok (mem, none)
  | some fp => do
    let offset ← intMul io.blkno BLKSZ
    let size ← intMul io.blkcnt BLKSZ
    if size < 0 then .error .undefined
    else transferAt io size.toNat mem (fp.fseek offset)

/-! ## Requests -/

variable {bio : Blkio} {mem mem' : Memory} {fp fp' : File}

/-- A request whose bytes a read finds in the file. -/
def Complete (bio : Blkio) (fp : File) : Prop :=
  bio.blkcnt ≠ 0 ∧ (bio.write = true ∨ bio.first + bio.len ≤ fp.bytes.length)

theorem byteAt_of_le {k : Nat} (h : fp.bytes.length ≤ k) : fp.byteAt k = 0 := by
  unfold File.byteAt
  rw [List.getD_eq_default _ _ h]

/-- A file as long as `n` has the bytes of `m`, if `m` has nothing behind. -/
theorem byteAt_slice {m : Nat → UInt8} {n pos : Nat} (h : ∀ k, n ≤ k → m k = 0) :
    File.byteAt ⟨slice m 0 n, pos⟩ = m := by
  funext k
  unfold File.byteAt
  by_cases hk : k < n
  · rw [List.getD_eq_getElem?_getD, Lib.getElem?_slice hk, Nat.zero_add, Option.getD_some]
  · rw [List.getD_eq_default _ _ (by rw [Lib.length_slice]; omega), h k (by omega)]

theorem intMul_block {i : Int} (hnonneg : 0 ≤ i) (hlt : i < 0x400000) :
    intMul i BLKSZ = .ok (i.toNat * BLKSZ : Nat) := by
  unfold intMul
  have hprod : i * (BLKSZ : Nat) = (i.toNat * BLKSZ : Nat) := by
    push_cast
    rw [Int.toNat_of_nonneg hnonneg]
  have hsize : (BLKSZ : Int) = 512 := rfl
  rw [if_pos (by rw [hsize]; omega), hprod]

theorem fwrite_effect (fp : File) (buf size : Nat) (mem : Memory) (hsize : size ≠ 0) :
    ∃ fp', fp.fwrite buf size mem = (1, fp') ∧ fp.bytes.length ≤ fp'.bytes.length ∧
      fp'.byteAt = splice fp.byteAt fp.pos size fun i => mem (buf + i) := by
  refine ⟨_, if_neg hsize, ?_, ?_⟩
  · rw [Lib.length_slice]
    exact Nat.le_max_left _ _
  · apply byteAt_slice
    intro k hk
    rw [Nat.max_le] at hk
    rw [Lib.splice_outside (by omega), byteAt_of_le hk.1]

theorem fread_effect (fp : File) (buf size : Nat) (mem : Memory) (hsize : size ≠ 0)
    (hend : fp.pos + size ≤ fp.bytes.length) :
    fp.fread buf size mem =
      (1, splice mem buf size fun i => fp.byteAt (fp.pos + i),
        { fp with pos := fp.pos + size }) := by
  have hgot : min size (fp.bytes.length - fp.pos) = size := Nat.min_eq_left (by omega)
  simp only [File.fread, hgot, ne_eq, hsize, not_false_eq_true, and_self, if_true]

theorem fread_short (fp : File) (buf size : Nat) (mem : Memory)
    (h : size = 0 ∨ fp.bytes.length < fp.pos + size) : (fp.fread buf size mem).1 = 0 := by
  apply if_neg
  omega

theorem amDiskBlkio_within (hwithin : bio.Within 0x3fffff) (mem : Memory) (fp : File) :
    amDiskBlkio bio mem (some fp) =
      transferAt bio bio.len mem { fp with pos := bio.first } := by
  obtain ⟨hblkno, hblkcnt, hend⟩ := hwithin
  have hseek : fp.fseek (bio.blkno.toNat * BLKSZ : Nat) = { fp with pos := bio.first } :=
    if_pos (Int.natCast_nonneg _)
  unfold amDiskBlkio
  rw [intMul_block hblkno (by omega), intMul_block hblkcnt (by omega)]
  show (if ((bio.blkcnt.toNat * BLKSZ : Nat) : Int) < 0 then Except.error Fault.undefined
    else transferAt bio (Int.toNat (bio.blkcnt.toNat * BLKSZ : Nat)) mem
      (fp.fseek (bio.blkno.toNat * BLKSZ : Nat))) = _
  rw [if_neg (by omega), hseek]
  rfl

/-- Within the blocks whose offsets fit into an `int`, a request has its effect or fails. -/
theorem amDiskBlkio_eq (hwithin : bio.Within 0x3fffff) (mem : Memory) (fp : File) :
    (Complete bio fp ∧ ∃ mem' fp', amDiskBlkio bio mem (some fp) = .ok (mem', some fp') ∧
        bio.Effect mem mem' fp.byteAt fp'.byteAt ∧ fp.bytes.length ≤ fp'.bytes.length) ∨
      ¬Complete bio fp ∧ amDiskBlkio bio mem (some fp) = .error .assertion := by
  have hzero : bio.len = 0 ↔ bio.blkcnt = 0 := by
    have hblkcnt := hwithin.blkcnt_nonneg
    unfold Blkio.len BLKSZ
    omega
  rw [amDiskBlkio_within hwithin]
  unfold transferAt Complete Blkio.Effect
  cases hwrite : bio.write with
  | true =>
      by_cases hsize : bio.len = 0
      · right
        refine ⟨fun h => h.1 (hzero.1 hsize), ?_⟩
        rw [hsize]
        rfl
      · left
        refine ⟨⟨fun h => hsize (hzero.2 h), .inl rfl⟩, ?_⟩
        obtain ⟨fp', hdone, hle, hbytes⟩ :=
          fwrite_effect { fp with pos := bio.first } bio.buf bio.len mem hsize
        refine ⟨mem, fp', ?_, ⟨rfl, hbytes⟩, hle⟩
        rw [if_pos rfl, hdone]
        rfl
  | false =>
      by_cases hcomplete : bio.len ≠ 0 ∧ bio.first + bio.len ≤ fp.bytes.length
      · left
        refine ⟨⟨fun h => hcomplete.1 (hzero.2 h), .inr hcomplete.2⟩, ?_⟩
        have hdone := fread_effect { fp with pos := bio.first } bio.buf bio.len mem hcomplete.1
          hcomplete.2
        refine ⟨splice mem bio.buf bio.len fun i => fp.byteAt (bio.first + i),
          { fp with pos := bio.first + bio.len }, ?_, ⟨rfl, rfl⟩, Nat.le_refl _⟩
        rw [if_neg Bool.false_ne_true, hdone]
        rfl
      · right
        have hshort := fread_short { fp with pos := bio.first } bio.buf bio.len mem (by
          simp only
          omega)
        refine ⟨?_, ?_⟩
        · intro h
          apply hcomplete
          refine ⟨fun hlen => h.1 (hzero.1 hlen), h.2.resolve_left Bool.false_ne_true⟩
        · rw [if_neg Bool.false_ne_true]
          have hfail : ¬(File.fread { fp with pos := bio.first } bio.buf bio.len mem).1 = 1 := by
            rw [hshort]
            exact Nat.zero_ne_one
          exact if_neg hfail

/-! ## Runs -/

/-- A request that fails ends the program. -/
def blkio (io : Blkio) (mem : Memory) (fp : File) : Option (Memory × File) :=
  match amDiskBlkio io mem (some fp) with
  | .ok (mem', some fp') => some (mem', fp')
  | _ => none

theorem blkio_complete {blocks : Nat} (hwithin : bio.Within blocks) (hblocks : blocks ≤ 0x3fffff)
    (mem : Memory) (hcomplete : Complete bio fp) :
    ∃ mem' fp', blkio bio mem fp = some (mem', fp') ∧ fp.bytes.length ≤ fp'.bytes.length := by
  cases amDiskBlkio_eq (hwithin.mono hblocks) mem fp with
  | inl hok =>
      obtain ⟨-, mem', fp', hdone, -, hle⟩ := hok
      refine ⟨mem', fp', ?_, hle⟩
      rw [blkio, hdone]
  | inr hfail => exact absurd hcomplete hfail.1

theorem blkio_stores (blocks : Nat) (hblocks : blocks ≤ 0x3fffff) (len : Nat) :
    Stores blkio blocks (fun fp => len ≤ fp.bytes.length) File.byteAt where
  step := by
    intro bio mem mem' fp fp' hlen hwithin h
    unfold blkio at h
    cases amDiskBlkio_eq (hwithin.mono hblocks) mem fp with
    | inl hok =>
        obtain ⟨-, mem₁, fp₁, hdone, heffect, hle⟩ := hok
        rw [hdone] at h
        cases h
        exact ⟨Nat.le_trans hlen hle, heffect⟩
    | inr hfail =>
        rw [hfail.2] at h
        cases h

/-- For an image below two gigabytes, the file is a store of bytes in every run of requests for
its blocks. Such a request is done unless it is for no block at all or reads beyond the end of
the file; then an assertion fails. In an image of whole blocks only the first can happen. -/
theorem native_disk_serves {fp₀ : File} {mem₀ : Memory} {log : List (Transfer UInt8)}
    (hsize : diskSize fp₀.bytes ≤ 0x3fffff)
    (run : Run anyStep (Next blkio (diskSize fp₀.bytes)) (mem₀, fp₀) log (mem, fp)) :
    Served fp₀.byteAt log ∧ fp.byteAt = contents fp₀.byteAt log ∧
    (∀ bio : Blkio, bio.Within (diskSize fp₀.bytes) →
      (Complete bio fp ∧ ∃ mem' fp', amDiskBlkio bio mem (some fp) = .ok (mem', some fp')) ∨
        ¬Complete bio fp ∧ amDiskBlkio bio mem (some fp) = .error .assertion) ∧
    (512 ∣ fp₀.bytes.length → ∀ bio : Blkio, bio.Within (diskSize fp₀.bytes) → bio.blkcnt ≠ 0 →
      Complete bio fp) := by
  obtain ⟨hlen, hserved, hbytes⟩ :=
    (blkio_stores _ hsize fp₀.bytes.length).served (Nat.le_refl _) run
  refine ⟨hserved, hbytes, ?_, ?_⟩
  · intro bio hwithin
    cases amDiskBlkio_eq (hwithin.mono hsize) mem fp with
    | inl hok =>
        obtain ⟨hcomplete, mem', fp', hdone, -, -⟩ := hok
        exact .inl ⟨hcomplete, mem', fp', hdone⟩
    | inr hfail => exact .inr hfail
  · intro hwhole bio hwithin hsome
    refine ⟨hsome, .inr ?_⟩
    obtain ⟨hblkno, hblkcnt, hend⟩ := hwithin
    unfold diskSize at hend
    unfold Blkio.first Blkio.len BLKSZ
    simp only at hlen
    omega

def zeroImage : File where
  bytes := List.replicate 1024 0
  pos := 0

theorem length_zeroImage : zeroImage.bytes.length = 1024 := List.length_replicate

theorem diskSize_zeroImage : diskSize zeroImage.bytes = 2 := by
  rw [diskSize, length_zeroImage]

theorem byteAt_zeroImage : zeroImage.byteAt = fun _ => 0 := by
  funext k
  by_cases hk : k < 1024
  · rw [File.byteAt, zeroImage, List.getD_replicate _ hk]
  · exact byteAt_of_le (by rw [length_zeroImage]; omega)

theorem zeroImage_run : ∃ data mem fp,
    Run anyStep (Next blkio (diskSize zeroImage.bytes)) (fun p => UInt8.ofNat p, zeroImage)
      [.put 0 (slice (fun p => UInt8.ofNat p) 7 1024), .got 512 (slice data 5000 512)]
      (mem, fp) := by
  have hwrite : (⟨true, 7, 0, 2⟩ : Blkio).Within 2 := ⟨by decide, by decide, by decide⟩
  have hread : (⟨false, 5000, 1, 1⟩ : Blkio).Within 2 := ⟨by decide, by decide, by decide⟩
  have hcomplete : Complete ⟨true, 7, 0, 2⟩ zeroImage := ⟨by decide, .inl rfl⟩
  obtain ⟨mem₁, fp₁, hfirst, hle⟩ :=
    blkio_complete hwrite (by decide) (fun p => UInt8.ofNat p) hcomplete
  obtain ⟨mem₂, fp₂, hsecond, -⟩ := blkio_complete hread (by decide) mem₁
    ⟨by decide, .inr (Nat.le_trans (by rw [length_zeroImage]; decide) hle)⟩
  rw [diskSize_zeroImage]
  have empty : Run anyStep (Next blkio 2) (fun p => UInt8.ofNat p, zeroImage) [] _ := .start
  have run := (empty.snoc trivial (.request hwrite hfirst)).snoc trivial (.request hread hsecond)
  exact ⟨mem₂, mem₂, fp₂, run⟩

theorem native_disk_serves_zeroImage : ∃ log mem fp,
    Run anyStep (Next blkio (diskSize zeroImage.bytes)) (fun p => UInt8.ofNat p, zeroImage) log
      (mem, fp) ∧ log.length = 2 ∧
    Served zeroImage.byteAt log ∧ fp.byteAt = contents zeroImage.byteAt log ∧
    (∀ bio : Blkio, bio.Within (diskSize zeroImage.bytes) →
      (Complete bio fp ∧ ∃ mem' fp', amDiskBlkio bio mem (some fp) = .ok (mem', some fp')) ∨
        ¬Complete bio fp ∧ amDiskBlkio bio mem (some fp) = .error .assertion) ∧
    (512 ∣ zeroImage.bytes.length → ∀ bio : Blkio, bio.Within (diskSize zeroImage.bytes) →
      bio.blkcnt ≠ 0 → Complete bio fp) := by
  obtain ⟨data, mem, fp, run⟩ := zeroImage_run
  exact ⟨_, mem, fp, run, rfl,
    native_disk_serves (by rw [diskSize_zeroImage]; decide) run⟩

/-! ## Both machines -/

/-- Started with the same bytes on the disk and given the same requests, the two machines read
the same and leave the same bytes. -/
theorem disks_agree {a₀ a : Ata} {fp₀ : File} {mem₁ mem₂ mem₁' mem₂' : Memory}
    {log log' : List (Transfer UInt8)} (hrest : a₀.Resting)
    (hsize : diskSize fp₀.bytes ≤ 0x3fffff) (hsame : a₀.drives 0 = fp₀.byteAt)
    (run : Run anyStep (Next diskBlkio 0x10000000) (mem₁, a₀) log (mem₁', a))
    (run' : Run anyStep (Next blkio (diskSize fp₀.bytes)) (mem₂, fp₀) log' (mem₂', fp))
    (hasked : log.map Transfer.asked = log'.map Transfer.asked) :
    log = log' ∧ a.drives 0 = fp.byteAt := by
  obtain ⟨⟨-, -⟩, hserved, hbytes⟩ :=
    (diskBlkio_stores a₀).served ⟨hrest, fun _ _ => rfl⟩ run
  obtain ⟨-, hserved', hbytes'⟩ :=
    (blkio_stores _ hsize fp₀.bytes.length).served (Nat.le_refl _) run'
  simp only [hsame] at hserved hbytes
  have hlog := hserved.unique hserved' hasked
  exact ⟨hlog, by rw [hbytes, hbytes', hlog]⟩

theorem disks_agree_zero : ∃ log log' mem mem' a fp,
    Run anyStep (Next diskBlkio 0x10000000) (fun p => UInt8.ofNat p, slowDisk) log (mem, a) ∧
    Run anyStep (Next blkio (diskSize zeroImage.bytes)) (fun p => UInt8.ofNat p, zeroImage) log'
      (mem', fp) ∧
    log.length = 2 ∧ log = log' ∧ a.drives 0 = fp.byteAt := by
  obtain ⟨data, mem, a, run⟩ := slowDisk_run
  obtain ⟨data', mem', fp, run'⟩ := zeroImage_run
  have hrest : slowDisk.Resting := rfl
  have hsame : slowDisk.drives 0 = zeroImage.byteAt := byteAt_zeroImage.symm
  have hasked : Transfer.asked (.got 512 (slice data 5000 512)) =
      Transfer.asked (.got 512 (slice data' 5000 512)) := by
    simp only [Transfer.asked, Lib.length_slice]
  exact ⟨_, _, mem, mem', a, fp, run, run', rfl,
    disks_agree hrest (by rw [diskSize_zeroImage]; decide) hsame run run'
      (by rw [List.map_cons, List.map_singleton, hasked]; rfl)⟩

end OSLabs.Disk.Native
