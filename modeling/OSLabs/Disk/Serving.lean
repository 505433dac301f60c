import OSLabs.Boot.Image
import OSLabs.Disk.Blocks
import OSLabs.Lib.Run

/-! # The disk over whole runs

A program computes in its memory and makes requests of the disk. The disk is a store for it:
what it reads is what it last wrote there.
-/

namespace OSLabs.Disk

open Boot (Memory)
open Lib (Run anyStep Transfer Served contents slice splice written)

/-! ## Requests -/

def Blkio.first (bio : Blkio) : Nat := bio.blkno.toNat * BLKSZ

def Blkio.len (bio : Blkio) : Nat := bio.blkcnt.toNat * BLKSZ

structure Blkio.Within (bio : Blkio) (blocks : Nat) : Prop where
  blkno_nonneg : 0 ≤ bio.blkno
  blkcnt_nonneg : 0 ≤ bio.blkcnt
  end_le : bio.blkno + bio.blkcnt ≤ blocks

theorem Blkio.Within.mono {bio : Blkio} {m n : Nat} (h : bio.Within m) (hle : m ≤ n) :
    bio.Within n :=
  ⟨h.blkno_nonneg, h.blkcnt_nonneg, Int.le_trans h.end_le (Int.ofNat_le.2 hle)⟩

def Blkio.transfer (bio : Blkio) (mem mem' : Memory) : Transfer UInt8 :=
  if bio.write then .put bio.first (slice mem bio.buf bio.len)
  else .got bio.first (slice mem' bio.buf bio.len)

def Blkio.Effect (bio : Blkio) (mem mem' : Memory) (bytes bytes' : Nat → UInt8) : Prop :=
  if bio.write then
    mem' = mem ∧ bytes' = splice bytes bio.first bio.len fun i => mem (bio.buf + i)
  else
    mem' = splice mem bio.buf bio.len (fun i => bytes (bio.first + i)) ∧ bytes' = bytes

variable {bio : Blkio} {mem mem' : Memory} {bytes bytes' : Nat → UInt8}

theorem Blkio.Effect.served (h : bio.Effect mem mem' bytes bytes') :
    Served bytes [bio.transfer mem mem'] ∧ bytes' = contents bytes [bio.transfer mem mem'] := by
  unfold Effect at h
  unfold transfer
  cases hwrite : bio.write with
  | true =>
      rw [if_pos hwrite] at h
      rw [if_pos rfl]
      exact ⟨trivial, h.2.trans (Lib.written_slice mem bio.buf).symm⟩
  | false =>
      have hnot : ¬bio.write = true := Bool.not_eq_true _ ▸ hwrite
      rw [if_neg hnot] at h
      rw [if_neg Bool.false_ne_true]
      refine ⟨⟨?_, trivial⟩, h.2⟩
      rw [Lib.length_slice, h.1, Lib.slice_splice]
      apply Lib.slice_congr
      intro i hi
      rw [Nat.zero_add]

theorem Blkio.Effect.frame (h : bio.Effect mem mem' bytes bytes') {p : Nat}
    (hp : bio.write = true ∨ ¬(bio.buf ≤ p ∧ p < bio.buf + bio.len)) : mem' p = mem p := by
  unfold Effect at h
  by_cases hwrite : bio.write = true
  · rw [if_pos hwrite] at h
    rw [h.1]
  · rw [if_neg hwrite] at h
    rw [h.1, Lib.splice_outside (hp.resolve_left hwrite)]

/-! ## Runs -/

section

variable {D : Type} (blkio : Blkio → Memory → D → Option (Memory × D)) (blocks : Nat)

inductive Next : Memory × D → List (Transfer UInt8) → Memory × D → Prop where
  | compute (mem mem' : Memory) (d : D) : Next (mem, d) [] (mem', d)
  | request {bio : Blkio} {mem mem' : Memory} {d d' : D} (hwithin : bio.Within blocks)
      (h : blkio bio mem d = some (mem', d')) :
      Next (mem, d) [bio.transfer mem mem'] (mem', d')

/-- A disk whose requests have their effect on its bytes, as long as `inv` holds. -/
structure Stores (inv : D → Prop) (bytes : D → Nat → UInt8) : Prop where
  step : ∀ {bio : Blkio} {mem mem' : Memory} {d d' : D}, inv d → bio.Within blocks →
    blkio bio mem d = some (mem', d') → inv d' ∧ bio.Effect mem mem' (bytes d) (bytes d')

variable {blkio blocks} {inv : D → Prop} {bytes : D → Nat → UInt8} {start s : Memory × D}
  {log : List (Transfer UInt8)}

theorem Stores.served (stores : Stores blkio blocks inv bytes) (hinv : inv start.2)
    (run : Run anyStep (Next blkio blocks) start log s) :
    inv s.2 ∧ Served (bytes start.2) log ∧ bytes s.2 = contents (bytes start.2) log := by
  apply run.invariant (fun log s => inv s.2 ∧ Served (bytes start.2) log ∧
    bytes s.2 = contents (bytes start.2) log) ⟨hinv, trivial, rfl⟩
  intro log es s s' _ _ ih hstep
  obtain ⟨hinv, hserved, hbytes⟩ := ih
  cases hstep with
  | compute mem mem' d =>
      rw [List.append_nil]
      exact ⟨hinv, hserved, hbytes⟩
  | request hwithin h =>
      obtain ⟨hinv', heffect⟩ := stores.step hinv hwithin h
      obtain ⟨hnew, hafter⟩ := heffect.served
      refine ⟨hinv', ?_, ?_⟩
      · rw [Lib.served_append, ← hbytes]
        exact ⟨hserved, hnew⟩
      · rw [Lib.contents_append, ← hbytes]
        exact hafter

end

/-! ## The controller as a store -/

variable {a a₀ : Ata} {log : List (Transfer UInt8)}

theorem ofInt_eq {i : Int} (h : 0 ≤ i) (hlt : i < 0x100000000) : ofInt i = i.toNat := by
  unfold ofInt
  rw [Int.emod_eq_of_lt h hlt]

/-- In the range of the disk the sectors of a read are next to each other on drive `0`. -/
theorem sectorsRead_low (drives : Boot.Drives) {blkno n : Nat} (hrange : blkno + n ≤ 0x10000000)
    (mem : Memory) (ptr : Nat) :
    Boot.sectorsRead drives n mem ptr blkno =
      splice mem ptr (n * BLKSZ) fun i => drives 0 (blkno * BLKSZ + i) := by
  funext p
  rw [Boot.sectorsRead_apply _ _ _ (by omega), Boot.SECTSIZE, BLKSZ]
  by_cases hp : ptr ≤ p ∧ p < ptr + n * 512
  · have hlow : blkno + (p - ptr) / 512 < 0x10000000 := by omega
    have hsector : Boot.uint32 (blkno + (p - ptr) / 512) = blkno + (p - ptr) / 512 :=
      Nat.mod_eq_of_lt (by omega)
    have hbyte : (blkno + (p - ptr) / 512) * 512 + (p - ptr) % 512 = blkno * 512 + (p - ptr) := by
      omega
    rw [if_pos hp, hsector, Boot.sectorByte_low hlow, Lib.splice_inside hp, Boot.SECTSIZE, hbyte]
  · rw [if_neg hp, Lib.splice_outside hp]

/-- A request does not come to a place where the controller is busy, and has its effect. -/
theorem diskBlkio_eq (hrest : a.Resting) (hwithin : bio.Within 0x10000000) (mem : Memory) :
    ∃ mem' a', diskBlkio bio mem a = some (mem', a') ∧ a'.Resting ∧
      (∀ drive ≠ 0, a'.drives drive = a.drives drive) ∧
      bio.Effect mem mem' (a.drives 0) (a'.drives 0) := by
  obtain ⟨hblkno, hblkcnt, hend⟩ := hwithin
  have hfits : bio.blkno.toNat + bio.blkcnt.toNat ≤ 0x10000000 := by omega
  unfold diskBlkio Blkio.Effect
  rw [ofInt_eq hblkno (by omega), ofInt_eq hblkcnt (by omega)]
  cases hwrite : bio.write with
  | true =>
      obtain ⟨c, hloop, hidle, hdrives⟩ :=
        blkioLoop_write bio.blkcnt.toNat bio.blkno.toNat bio.buf mem hrest hfits
      refine ⟨mem, c, hloop, hidle, ?_, rfl, ?_⟩
      · intro drive hdrive
        rw [hdrives, Function.update_of_ne hdrive]
      · rw [hdrives, Function.update_self]
        rfl
  | false =>
      obtain ⟨c, hloop, hidle, hdrives⟩ :=
        blkioLoop_read bio.blkcnt.toNat bio.blkno.toNat bio.buf mem hrest
      refine ⟨_, c, hloop, hidle, fun drive _ => congrFun hdrives drive, ?_,
        congrFun hdrives 0⟩
      exact sectorsRead_low a.drives hfits mem bio.buf

theorem diskBlkio_stores (a₀ : Ata) :
    Stores diskBlkio 0x10000000
      (fun a => a.Resting ∧ ∀ drive ≠ 0, a.drives drive = a₀.drives drive)
      (fun a => a.drives 0) where
  step := by
    intro bio mem mem' a a' hinv hwithin h
    obtain ⟨mem₁, a₁, hdone, hidle, hother, heffect⟩ := diskBlkio_eq hinv.1 hwithin mem
    rw [hdone, Option.some.injEq, Prod.mk.injEq] at h
    rw [← h.1, ← h.2]
    refine ⟨⟨hidle, ?_⟩, heffect⟩
    intro drive hdrive
    rw [hother drive hdrive, hinv.2 drive hdrive]

/-- However long the controller takes, it is a store of bytes in every run: a request reads what
the last writes have left in its blocks, no access comes while the controller is busy, nothing
but the buffer of a read changes in the memory, and the second drive keeps its bytes. -/
theorem disk_serves {mem₀ : Memory} (hrest : a₀.Resting)
    (run : Run anyStep (Next diskBlkio 0x10000000) (mem₀, a₀) log (mem, a)) :
    Served (a₀.drives 0) log ∧ a.drives 0 = contents (a₀.drives 0) log ∧
    (∀ drive ≠ 0, a.drives drive = a₀.drives drive) ∧
    ∀ bio : Blkio, bio.Within 0x10000000 → ∃ mem' a', diskBlkio bio mem a = some (mem', a') ∧
      ∀ p, bio.write = true ∨ ¬(bio.buf ≤ p ∧ p < bio.buf + bio.len) → mem' p = mem p := by
  obtain ⟨⟨hidle, hother⟩, hserved, hbytes⟩ :=
    (diskBlkio_stores a₀).served ⟨hrest, fun _ _ => rfl⟩ run
  refine ⟨hserved, hbytes, hother, ?_⟩
  intro bio hwithin
  obtain ⟨mem', a', hdone, -, -, heffect⟩ := diskBlkio_eq hidle hwithin mem
  exact ⟨mem', a', hdone, fun p hp => heffect.frame hp⟩

/-- A controller that takes a while for everything, with empty drives. -/
def slowDisk : Ata where
  count := 0
  lbaLow := 0
  lbaMid := 0
  lbaHigh := 0
  device := 0
  phase := .idle
  busy := [0x50]
  delays := fun i => List.replicate i 0x50
  drives := fun _ _ => 0

theorem slowDisk_run : ∃ data mem a,
    Run anyStep (Next diskBlkio 0x10000000) (fun p => UInt8.ofNat p, slowDisk)
      [.put 0 (slice (fun p => UInt8.ofNat p) 7 1024), .got 512 (slice data 5000 512)]
      (mem, a) := by
  have hwrite : (⟨true, 7, 0, 2⟩ : Blkio).Within 0x10000000 := ⟨by decide, by decide, by decide⟩
  have hread : (⟨false, 5000, 1, 1⟩ : Blkio).Within 0x10000000 :=
    ⟨by decide, by decide, by decide⟩
  have hstart : slowDisk.Resting := rfl
  obtain ⟨mem₁, a₁, hfirst, hidle, -, -⟩ :=
    diskBlkio_eq hstart hwrite fun p => UInt8.ofNat p
  obtain ⟨mem₂, a₂, hsecond, -, -, -⟩ := diskBlkio_eq hidle hread mem₁
  have empty : Run anyStep (Next diskBlkio 0x10000000) (fun p => UInt8.ofNat p, slowDisk) [] _ :=
    .start
  have run := (empty.snoc trivial (.request hwrite hfirst)).snoc trivial (.request hread hsecond)
  exact ⟨mem₂, mem₂, a₂, run⟩

theorem disk_serves_slowDisk : ∃ log mem a,
    Run anyStep (Next diskBlkio 0x10000000) (fun p => UInt8.ofNat p, slowDisk) log (mem, a) ∧
    log.length = 2 ∧
    Served (slowDisk.drives 0) log ∧ a.drives 0 = contents (slowDisk.drives 0) log ∧
    (∀ drive ≠ 0, a.drives drive = slowDisk.drives drive) ∧
    ∀ bio : Blkio, bio.Within 0x10000000 → ∃ mem' a', diskBlkio bio mem a = some (mem', a') ∧
      ∀ p, bio.write = true ∨ ¬(bio.buf ≤ p ∧ p < bio.buf + bio.len) → mem' p = mem p := by
  obtain ⟨data, mem, a, run⟩ := slowDisk_run
  exact ⟨_, mem, a, run, rfl, disk_serves rfl run⟩

end OSLabs.Disk
