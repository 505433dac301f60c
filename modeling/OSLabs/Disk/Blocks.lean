import Mathlib.Tactic.Ring
import OSLabs.Boot.Loading
import OSLabs.Disk.Model
import OSLabs.Lib.Storage

/-! # What a request of the disk does

The driver waits before each access, so however long the controller takes, the request moves
the bytes of its sectors.
-/

namespace OSLabs.Disk

open Boot (Memory Drives SECTSIZE uint32 readLE sectorByte sectorsRead)
open Lib (splice splice_congr splice_splice splice_zero)

variable {a : Ata} {mem : Memory}

/-! ## Waiting -/

theorem busy_bit (bits : UInt8) : (0x80 ||| bits) &&& 0xc0 ≠ 0x40 := by
  intro h
  have hbit := congrArg (fun v : UInt8 => v.toBitVec.getLsbD 7) h
  simp at hbit

theorem waitDisk_eq (a : Ata) : waitDisk a = { a with busy := [] } := by
  cases hbusy : a.busy with
  | nil =>
      have hready := Ata.inb_of_ready hbusy
      rw [waitDisk, if_neg (not_not_intro hready.1), hready.2, ← hbusy]
  | cons bits busy =>
      have ih := waitDisk_eq { a with busy }
      rw [waitDisk, Ata.inb_of_busy hbusy, if_pos (busy_bit bits), ih]
termination_by a.busy.length
decreasing_by
  rw [hbusy]
  exact Nat.lt_succ_self busy.length

/-! ## Words -/

theorem readLE_byte (m : Memory) (p : Nat) {n k : Nat} (hk : k < n) :
    readLE m p n / 256 ^ k % 256 = (m (p + k)).toNat := by
  have hlow := UInt8.toNat_lt (m p)
  induction k generalizing n p with
  | zero =>
      cases n with
      | zero => omega
      | succ n =>
          simp only [readLE, Nat.add_zero, pow_zero, Nat.div_one]
          omega
  | succ k ih =>
      cases n with
      | zero => omega
      | succ n =>
          have hrest : ((m p).toNat + 256 * readLE m (p + 1) n) / 256 = readLE m (p + 1) n := by
            omega
          rw [readLE, pow_succ', ← Nat.div_div_eq_div_mul, hrest, ih (p + 1) (by omega)
            (UInt8.toNat_lt _), Nat.add_right_comm, Nat.add_assoc]

theorem storeLE_readLE (m f : Memory) (p q n : Nat) :
    storeLE m p (readLE f q n) n = splice m p n fun i => f (q + i) := by
  funext x
  unfold storeLE splice
  by_cases hx : p ≤ x ∧ x < p + n
  · rw [if_pos hx, if_pos hx]
    apply UInt8.toNat_inj.1
    rw [UInt8.toNat_ofNat', ← readLE_byte f q (show x - p < n by omega)]
  · rw [if_neg hx, if_neg hx]

/-! ## One sector -/

theorem toNat_or_lba (v : UInt8) :
    (v ||| 0xe0).toNat % 16 = v.toNat % 16 ∧ (v ||| 0xe0).toNat / 16 % 2 = v.toNat / 16 % 2 := by
  have hmask : (0xe0 : UInt8).toNat = 0xe0 := rfl
  have hlow : (v.toNat ||| 0xe0) % 2 ^ 4 = v.toNat % 2 ^ 4 := by
    rw [Nat.or_mod_two_pow]
    exact Nat.or_zero _
  have hhigh : (v.toNat ||| 0xe0) / 2 ^ 4 % 2 ^ 1 = v.toNat / 2 ^ 4 % 2 ^ 1 := by
    rw [Nat.or_div_two_pow, Nat.or_mod_two_pow]
    exact Nat.or_zero _
  rw [UInt8.toNat_or, hmask]
  exact ⟨hlow, hhigh⟩

theorem lba_mode (v : UInt8) : (v ||| 0xe0) &&& 0x40 ≠ 0 := by
  intro h
  have hbit := congrArg (fun v : UInt8 => v.toBitVec.getLsbD 6) h
  simp at hbit

/-- The registers select the drive and the sector that the number stands for. -/
theorem command_eq (sect : Nat) (cmd : UInt8) (hready : a.busy = []) (hidle : a.phase = .idle) :
    ∃ b : Ata, command sect cmd a = b.start cmd ∧ b.count = 1 ∧ b.device &&& 0x40 ≠ 0 ∧
      b.drive = sect / 0x10000000 % 2 ∧ b.lba = sect % 0x10000000 ∧ b.drives = a.drives := by
  have hguard : a.busy = [] ∧ a.phase = .idle := ⟨hready, hidle⟩
  refine ⟨{ a with
    count := 1, lbaLow := UInt8.ofNat sect, lbaMid := UInt8.ofNat (sect / 2 ^ 8),
    lbaHigh := UInt8.ofNat (sect / 2 ^ 16), device := UInt8.ofNat (sect / 2 ^ 24) ||| 0xe0 },
    ?_, rfl, lba_mode _, ?_, ?_, rfl⟩
  · simp [command, Ata.outb, hready, hidle]
  · have hdevice := (toNat_or_lba (UInt8.ofNat (sect / 2 ^ 24))).2
    have hdiv : sect / 2 ^ 24 / 16 = sect / 0x10000000 := Nat.div_div_eq_div_mul _ _ _
    rw [UInt8.toNat_ofNat'] at hdevice
    rw [Ata.drive, hdevice, ← hdiv]
    omega
  · have hdevice := (toNat_or_lba (UInt8.ofNat (sect / 2 ^ 24))).1
    rw [UInt8.toNat_ofNat'] at hdevice
    simp only [Ata.lba, hdevice, UInt8.toNat_ofNat']
    omega

theorem inl_eq {drive lba pos : Nat} (hphase : a.phase = .reading drive lba pos)
    (hready : a.busy = []) :
    a.inl = some (readLE (a.drives drive) (lba * SECTSIZE + pos) 4,
      if pos + 4 < SECTSIZE then { a with phase := .reading drive lba (pos + 4) }
      else a.startPhase .idle) := by
  unfold Ata.inl
  rw [hphase]
  exact if_pos hready

theorem readWords_eq {drive lba pos n : Nat} (ptr : Nat) (mem : Memory)
    (hphase : a.phase = .reading drive lba pos) (hready : a.busy = [])
    (hpos : pos + 4 * (n + 1) = SECTSIZE) :
    readWords (n + 1) ptr mem a =
      some (splice mem ptr (4 * (n + 1)) fun i => a.drives drive (lba * SECTSIZE + pos + i),
        a.startPhase .idle) := by
  induction n generalizing a mem ptr pos with
  | zero =>
      rw [readWords, inl_eq hphase hready, if_neg (by omega)]
      show readWords 0 (ptr + 4)
        (storeLE mem ptr (readLE (a.drives drive) (lba * SECTSIZE + pos) 4) 4) _ = _
      rw [storeLE_readLE]
      rfl
  | succ n ih =>
      have hrest := ih (a := { a with phase := .reading drive lba (pos + 4) }) (ptr + 4)
        (splice mem ptr 4 fun i => a.drives drive (lba * SECTSIZE + pos + i)) rfl hready (by omega)
      have hword (i : Nat) : lba * SECTSIZE + (pos + 4) + i = lba * SECTSIZE + pos + (4 + i) := by
        omega
      have hlen : 4 + 4 * (n + 1) = 4 * (n + 1 + 1) := by omega
      simp only [hword] at hrest
      rw [splice_splice (f := fun i => a.drives drive (lba * SECTSIZE + pos + i)), hlen] at hrest
      rw [readWords, inl_eq hphase hready, if_pos (by omega)]
      show readWords (n + 1) (ptr + 4)
        (storeLE mem ptr (readLE (a.drives drive) (lba * SECTSIZE + pos) 4) 4) _ = _
      rw [storeLE_readLE]
      exact hrest

theorem readWords_sector {drive lba : Nat} (ptr : Nat) (mem : Memory)
    (hphase : a.phase = .reading drive lba 0) (hready : a.busy = []) :
    readWords (BLKSZ / 4) ptr mem a =
      some (splice mem ptr SECTSIZE fun i => a.drives drive (lba * SECTSIZE + i),
        a.startPhase .idle) := by
  have hcount : BLKSZ / 4 = 127 + 1 := rfl
  have hlen : 4 * (127 + 1) = SECTSIZE := rfl
  rw [hcount, readWords_eq ptr mem hphase hready (by decide), hlen]
  simp only [Nat.add_zero]

/-- What a write of `n` bytes leaves, apart from the phase. -/
def Ata.stored (a : Ata) (drive p n : Nat) (f : Nat → UInt8) : Ata :=
  { a with drives := Function.update a.drives drive (splice (a.drives drive) p n f) }

theorem outl_eq {drive lba pos : Nat} (hphase : a.phase = .writing drive lba pos)
    (hready : a.busy = []) (ptr : Nat) :
    a.outl (readLE mem ptr 4) =
      let b := a.stored drive (lba * SECTSIZE + pos) 4 fun i => mem (ptr + i)
      some (if pos + 4 < SECTSIZE then { b with phase := .writing drive lba (pos + 4) }
        else b.startPhase .idle) := by
  unfold Ata.outl
  rw [hphase]
  simp only [storeLE_readLE]
  exact if_pos hready

theorem writeWords_eq {drive lba pos n : Nat} (ptr : Nat)
    (hphase : a.phase = .writing drive lba pos) (hready : a.busy = [])
    (hpos : pos + 4 * (n + 1) = SECTSIZE) :
    writeWords (n + 1) ptr mem a =
      some ((a.stored drive (lba * SECTSIZE + pos) (4 * (n + 1)) fun i => mem (ptr + i)).startPhase
        .idle) := by
  induction n generalizing a ptr pos with
  | zero =>
      rw [writeWords, outl_eq hphase hready]
      simp only [if_neg (show ¬pos + 4 < SECTSIZE by omega)]
      rfl
  | succ n ih =>
      let b := a.stored drive (lba * SECTSIZE + pos) 4 fun i => mem (ptr + i)
      have hrest := ih (a := { b with phase := .writing drive lba (pos + 4) }) (ptr + 4) rfl hready
        (by omega)
      have hword (i : Nat) : ptr + 4 + i = ptr + (4 + i) := Nat.add_assoc ptr 4 i
      have hplace : lba * SECTSIZE + (pos + 4) = lba * SECTSIZE + pos + 4 := by omega
      have hlen : 4 + 4 * (n + 1) = 4 * (n + 1 + 1) := by omega
      simp only [b, Ata.stored, hword, hplace, Function.update_self, Function.update_idem] at hrest
      rw [splice_splice (f := fun i => mem (ptr + i)), hlen] at hrest
      rw [writeWords, outl_eq hphase hready]
      simp only [if_pos (show pos + 4 < SECTSIZE by omega)]
      exact hrest

theorem writeWords_sector {drive lba : Nat} (ptr : Nat) (mem : Memory)
    (hphase : a.phase = .writing drive lba 0) (hready : a.busy = []) :
    writeWords (BLKSZ / 4) ptr mem a =
      some ((a.stored drive (lba * SECTSIZE) SECTSIZE fun i => mem (ptr + i)).startPhase
        .idle) := by
  have hcount : BLKSZ / 4 = 127 + 1 := rfl
  have hlen : 4 * (127 + 1) = SECTSIZE := rfl
  rw [hcount, writeWords_eq ptr hphase hready (by decide), hlen, Nat.add_zero]

/-- The controller has done all requests, even if it may be busy for a while. -/
def Ata.Resting (a : Ata) : Prop := a.phase = .idle

theorem start_eq (sect : Nat) {cmd : UInt8} (hcmd : cmd = 0x20 ∨ cmd = 0x30)
    (hidle : a.Resting) :
    ∃ b : Ata, command sect cmd (waitDisk a) = some b ∧ b.drives = a.drives ∧
      b.phase = if cmd = 0x20 then .reading (sect / 0x10000000 % 2) (sect % 0x10000000) 0
        else .writing (sect / 0x10000000 % 2) (sect % 0x10000000) 0 := by
  rw [waitDisk_eq]
  obtain ⟨b, hcommand, hcount, hdevice, hdrive, hlba, hdrives⟩ :=
    command_eq (a := { a with busy := [] }) sect cmd rfl hidle
  rw [hcommand, Ata.start, if_pos ⟨hcount, hdevice⟩, hdrive, hlba]
  cases hcmd with
  | inl hread =>
      rw [if_pos hread, if_pos hread]
      exact ⟨_, rfl, hdrives, rfl⟩
  | inr hwrite =>
      have hne : cmd ≠ 0x20 := by
        rw [hwrite]
        decide
      rw [if_neg hne, if_neg hne, if_pos hwrite]
      exact ⟨_, rfl, hdrives, rfl⟩

theorem readSector_eq (sect ptr : Nat) (mem : Memory) (hidle : a.Resting) :
    ∃ b c : Ata, command sect 0x20 (waitDisk a) = some b ∧
      readWords (BLKSZ / 4) ptr mem (waitDisk b) =
        some (Boot.readDisk a.drives mem ptr sect, c) ∧ c.Resting ∧ c.drives = a.drives := by
  obtain ⟨b, hcommand, hdrives, hphase⟩ := start_eq sect (.inl rfl) hidle
  refine ⟨b, (waitDisk b).startPhase .idle, hcommand, ?_, rfl, ?_⟩
  · rw [waitDisk_eq, ← hdrives]
    exact readWords_sector (a := { b with busy := [] }) ptr mem hphase rfl
  · rw [waitDisk_eq]
    exact hdrives

theorem writeSector_eq (sect ptr : Nat) (mem : Memory) (hidle : a.Resting) :
    ∃ b c : Ata, command sect 0x30 (waitDisk a) = some b ∧
      writeWords (BLKSZ / 4) ptr mem (waitDisk b) = some c ∧ c.Resting ∧
      c.drives = Function.update a.drives (sect / 0x10000000 % 2)
        (splice (a.drives (sect / 0x10000000 % 2)) (sect % 0x10000000 * SECTSIZE) BLKSZ
          fun i => mem (ptr + i)) := by
  obtain ⟨b, hcommand, hdrives, hphase⟩ := start_eq sect (.inr rfl) hidle
  have hwords := writeWords_sector (a := waitDisk b) ptr mem
    (by rw [waitDisk_eq]; exact hphase) (by rw [waitDisk_eq])
  refine ⟨b, _, hcommand, hwords, rfl, ?_⟩
  rw [waitDisk_eq, ← hdrives]
  rfl

/-! ## The loop -/

theorem blkioLoop_read (n blkno ptr : Nat) (mem : Memory) (hidle : a.Resting) :
    ∃ c, blkioLoop false n blkno ptr mem a = some (sectorsRead a.drives n mem ptr blkno, c) ∧
      c.Resting ∧ c.drives = a.drives := by
  induction n generalizing a mem ptr blkno with
  | zero => exact ⟨a, rfl, hidle, rfl⟩
  | succ n ih =>
      obtain ⟨b, c, hcommand, hwords, hrest, hdrives⟩ := readSector_eq blkno ptr mem hidle
      obtain ⟨d, hloop, hidle', hsame⟩ :=
        ih (uint32 (blkno + 1)) (ptr + BLKSZ) (Boot.readDisk a.drives mem ptr blkno) hrest
      refine ⟨d, ?_, hidle', hsame.trans hdrives⟩
      rw [hdrives] at hloop
      simp only [blkioLoop, Bool.false_eq_true, if_false, hcommand, hwords, Option.bind_eq_bind,
        Option.bind_some, hloop]
      rfl

/-- The blocks of a write are next to each other on drive `0`. -/
theorem blkioLoop_write (n blkno ptr : Nat) (mem : Memory) (hidle : a.Resting)
    (hrange : blkno + n ≤ 0x10000000) :
    ∃ c, blkioLoop true n blkno ptr mem a = some (mem, c) ∧ c.Resting ∧
      c.drives = Function.update a.drives 0
        (splice (a.drives 0) (blkno * BLKSZ) (n * BLKSZ) fun i => mem (ptr + i)) := by
  induction n generalizing a ptr blkno with
  | zero =>
      refine ⟨a, rfl, hidle, ?_⟩
      rw [Nat.zero_mul, splice_zero, Function.update_eq_self]
  | succ n ih =>
      obtain ⟨b, c, hcommand, hwords, hrest, hdrives⟩ := writeSector_eq blkno ptr mem hidle
      have hnext : uint32 (blkno + 1) = blkno + 1 := Nat.mod_eq_of_lt (by omega)
      have hdrive : blkno / 0x10000000 % 2 = 0 := by omega
      have hlba : blkno % 0x10000000 = blkno := Nat.mod_eq_of_lt (by omega)
      rw [hdrive, hlba] at hdrives
      obtain ⟨d, hloop, hidle', hsame⟩ := ih (blkno + 1) (ptr + BLKSZ) hrest (by omega)
      refine ⟨d, ?_, hidle', ?_⟩
      · simp only [blkioLoop, if_true, hcommand, hwords, Option.bind_eq_bind, Option.bind_some,
          hnext, hloop]
      · have hplace : (blkno + 1) * BLKSZ = blkno * SECTSIZE + BLKSZ := Nat.succ_mul _ _
        have hlen : BLKSZ + n * BLKSZ = (n + 1) * BLKSZ := by ring
        have hword (i : Nat) : ptr + BLKSZ + i = ptr + (BLKSZ + i) := Nat.add_assoc _ _ _
        rw [hsame, hdrives, Function.update_self, Function.update_idem, hplace]
        simp only [hword]
        exact congrArg (Function.update a.drives 0)
          ((splice_splice (f := fun i => mem (ptr + i)) _).trans (by rw [hlen]; rfl))

end OSLabs.Disk
