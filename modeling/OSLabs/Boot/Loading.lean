import OSLabs.Boot.Model

/-! # What loading one segment stores

A segment is read in whole sectors, so its load also stores into the bytes in front of it
and behind its file part, and then clears its own rest.
-/

namespace OSLabs.Boot

variable {drives : Drives} {mem : Memory} {p : Phdr} {a stack : Nat}

/-! ## The loader's own memory -/

theorem Loader.free_iff {σ : Type} (l : Loader σ) {a n : Nat} (hn : 0 < n) :
    l.Free a n ↔ ∀ b, a ≤ b → b < a + n → ¬ l.Own b := by
  unfold Loader.Free Loader.Own
  constructor
  · intro hfree b hfrom hto
    omega
  · intro hkept
    have hcode := hkept (max a 0x7c00)
    have hstack := hkept (max a l.stack)
    omega

/-! ## The two loops -/

/-- How often the loop of `copy_from_disk` runs, if it ends. -/
def sectorCount (buf nbytes : Nat) : Nat :=
  (uint32 (buf + nbytes) - sectorStart buf + (SECTSIZE - 1)) / SECTSIZE

def sectorsRead (drives : Drives) : Nat → Memory → Nat → Nat → Memory
  | 0, mem, _, _ => mem
  | n + 1, mem, cur, sect =>
    sectorsRead drives n (readDisk drives mem cur sect) (cur + SECTSIZE) (uint32 (sect + 1))

theorem sectorsRead_apply (n : Nat) (mem : Memory) (cur : Nat) {sect : Nat}
    (hsect : sect < 0x100000000) (a : Nat) :
    sectorsRead drives n mem cur sect a =
      if cur ≤ a ∧ a < cur + n * SECTSIZE then
        sectorByte drives (uint32 (sect + (a - cur) / SECTSIZE)) ((a - cur) % SECTSIZE)
      else mem a := by
  induction n generalizing mem cur sect with
  | zero =>
      rw [if_neg (by omega)]
      rfl
  | succ n ih =>
      have hnext : uint32 (sect + 1) < 0x100000000 := Nat.mod_lt _ (by omega)
      rw [sectorsRead, ih _ _ hnext]
      unfold readDisk uint32 SECTSIZE
      by_cases hlater : cur + 512 ≤ a ∧ a < cur + 512 + n * 512
      · have hsector : (sect + 1) % 0x100000000 + (a - (cur + 512)) / 512 =
            (sect + 1) % 0x100000000 + ((a - cur) / 512 - 1) := by omega
        have hbyte : (a - (cur + 512)) % 512 = (a - cur) % 512 := by omega
        have hround : ((sect + 1) % 0x100000000 + ((a - cur) / 512 - 1)) % 0x100000000 =
            (sect + (a - cur) / 512) % 0x100000000 := by omega
        rw [if_pos hlater, if_pos (by omega), hsector, hbyte, hround]
      · rw [if_neg hlater]
        by_cases hfirst : cur ≤ a ∧ a < cur + 512
        · have hsector : (a - cur) / 512 = 0 := by omega
          have hbyte : (a - cur) % 512 = a - cur := by omega
          rw [if_pos hfirst, if_pos (by omega), hsector, hbyte, Nat.add_zero,
            Nat.mod_eq_of_lt hsect]
        · rw [if_neg hfirst, if_neg (by omega)]

theorem sectorStart_mod (buf : Nat) : sectorStart buf % SECTSIZE = 0 := Nat.mul_mod_left _ _

section Copy

variable {fuel cur ed sect n : Nat} (haligned : cur % SECTSIZE = 0) (hlow : ed ≤ 0xfffffe00)
  (hn : n = (ed - cur + (SECTSIZE - 1)) / SECTSIZE) (hfuel : n < fuel)

include haligned hlow hn hfuel

theorem copySectors_kept
    (hkept : ∀ a, cur ≤ a → a < cur + n * SECTSIZE → ¬ (byteDisk stack).Own a) :
    (byteDisk stack).copySectors fuel cur ed sect mem drives =
      some (sectorsRead drives n mem cur sect, drives) := by
  unfold SECTSIZE at haligned hn hkept
  induction fuel generalizing n cur sect mem with
  | zero => omega
  | succ fuel ih =>
      rw [Loader.copySectors]
      cases n with
      | zero =>
          rw [if_neg (by omega)]
          rfl
      | succ n =>
          have hfree : (byteDisk stack).Free cur SECTSIZE :=
            (Loader.free_iff _ (by decide)).2 fun a hfrom hto =>
              hkept a hfrom (by unfold SECTSIZE at hto; omega)
          have hnext : uint32 (cur + SECTSIZE) = cur + 512 :=
            Nat.mod_eq_of_lt (by unfold SECTSIZE; omega)
          rw [if_pos (by omega), if_pos hfree, hnext]
          exact ih (by omega) (by omega) (by omega)
            fun a hfrom hto => hkept a (by omega) (by omega)

theorem copySectors_hits
    (hhits : ∃ a, cur ≤ a ∧ a < cur + n * SECTSIZE ∧ (byteDisk stack).Own a) :
    (byteDisk stack).copySectors fuel cur ed sect mem drives = none := by
  unfold SECTSIZE at haligned hn hhits
  obtain ⟨a, hfrom, hto, hown⟩ := hhits
  induction fuel generalizing n cur sect mem with
  | zero => omega
  | succ fuel ih =>
      rw [Loader.copySectors]
      cases n with
      | zero => omega
      | succ n =>
          rw [if_pos (by omega)]
          by_cases hfree : (byteDisk stack).Free cur SECTSIZE
          · have hnot := (Loader.free_iff _ (by decide)).1 hfree a hfrom
            have hlater : cur + 512 ≤ a := by
              unfold SECTSIZE at hnot
              by_contra hbelow
              exact hnot (by omega) hown
            have hnext : uint32 (cur + SECTSIZE) = cur + 512 :=
              Nat.mod_eq_of_lt (by unfold SECTSIZE; omega)
            rw [if_pos hfree, hnext]
            exact ih (n := n) (by omega) (by omega) (by omega) hlater (by omega)
          · rw [if_neg hfree]

end Copy

section Clear

variable {n bss : Nat} (hlow : bss + n ≤ 0x80000000)

include hlow

theorem clearBss_kept (hkept : ∀ a, bss ≤ a → a < bss + n → ¬ (byteDisk stack).Own a) :
    (byteDisk stack).clearBss n bss mem =
      some fun a => if bss ≤ a ∧ a < bss + n then 0 else mem a := by
  induction n generalizing bss mem with
  | zero =>
      rw [Loader.clearBss]
      refine congrArg some (funext fun a => ?_)
      rw [if_neg (by omega)]
  | succ n ih =>
      have hfree : (byteDisk stack).Free bss 1 :=
        (Loader.free_iff _ (by decide)).2 fun a hfrom hto => hkept a hfrom (by omega)
      have hnext : uint32 (bss + 1) = bss + 1 := Nat.mod_eq_of_lt (by omega)
      rw [Loader.clearBss, if_pos hfree, hnext,
        ih (by omega) fun a hfrom hto => hkept a (by omega) (by omega)]
      refine congrArg some (funext fun a => ?_)
      by_cases hfirst : a = bss
      · rw [hfirst, if_neg (by omega), if_pos (by omega), Function.update_self]
      · rw [Function.update_of_ne hfirst]
        by_cases hlater : bss + 1 ≤ a ∧ a < bss + 1 + n
        · rw [if_pos hlater, if_pos (by omega)]
        · rw [if_neg hlater, if_neg (by omega)]

theorem clearBss_hits (hhits : ∃ a, bss ≤ a ∧ a < bss + n ∧ (byteDisk stack).Own a) :
    (byteDisk stack).clearBss n bss mem = none := by
  obtain ⟨a, hfrom, hto, hown⟩ := hhits
  induction n generalizing bss mem with
  | zero => omega
  | succ n ih =>
      rw [Loader.clearBss]
      by_cases hfree : (byteDisk stack).Free bss 1
      · have hnot := (Loader.free_iff _ (by decide)).1 hfree a hfrom
        have hlater : bss + 1 ≤ a := by
          by_contra hbelow
          exact hnot (by omega) hown
        have hnext : uint32 (bss + 1) = bss + 1 := Nat.mod_eq_of_lt (by omega)
        rw [if_pos hfree, hnext]
        exact ih (by omega) hlater (by omega)
      · rw [if_neg hfree]

end Clear

theorem firstSector_lt (diskOffset : Int) : firstSector diskOffset < 0x100000000 := by
  unfold firstSector
  omega

/-! ## One segment -/

namespace Phdr

def Data (p : Phdr) (a : Nat) : Prop := p.paddr ≤ a ∧ a < p.paddr + p.filesz

def Bss (p : Phdr) (a : Nat) : Prop := p.paddr + p.filesz ≤ a ∧ a < p.paddr + p.memsz

def Range (p : Phdr) (a : Nat) : Prop := p.paddr ≤ a ∧ a < p.paddr + p.memsz

/-- The whole sectors that are read for a segment. -/
def Sectors (p : Phdr) (a : Nat) : Prop :=
  sectorStart p.paddr ≤ a ∧
    a < sectorStart p.paddr + sectorCount p.paddr p.filesz * SECTSIZE

instance (p : Phdr) (a : Nat) : Decidable (p.Data a) := inferInstanceAs (Decidable (_ ∧ _))

instance (p : Phdr) (a : Nat) : Decidable (p.Bss a) := inferInstanceAs (Decidable (_ ∧ _))

instance (p : Phdr) (a : Nat) : Decidable (p.Sectors a) := inferInstanceAs (Decidable (_ ∧ _))

/-- The byte of the disk that these sectors have for an address. -/
def brought (drives : Drives) (p : Phdr) (a : Nat) : UInt8 :=
  sectorByte drives
    (uint32 (firstSector (int (uint32 p.offset)) + (a - sectorStart p.paddr) / SECTSIZE))
    ((a - sectorStart p.paddr) % SECTSIZE)

/-- The sizes fit each other and the addresses are below `2 ^ 31`. -/
structure Low (p : Phdr) : Prop where
  filesz_le : p.filesz ≤ p.memsz
  addr_le : p.paddr + p.memsz ≤ 0x80000000

theorem Data.sectors (h : p.Data a) (hlow : p.Low) : p.Sectors a := by
  have hle := hlow.filesz_le
  have haddr := hlow.addr_le
  unfold Data at h
  unfold Sectors sectorCount sectorStart uint32 SECTSIZE
  omega

end Phdr

def Phdr.Stores (p : Phdr) (a : Nat) : Prop := p.Sectors a ∨ p.Bss a

def segmentLoaded (drives : Drives) (mem : Memory) (p : Phdr) : Memory := fun a =>
  if p.Bss a then 0 else if p.Sectors a then p.brought drives a else mem a

section Segment

variable (hlow : p.Low)
include hlow

theorem loadSegment_eq : (byteDisk stack).loadSegment p mem drives = (do
    let (mem, s) ← (byteDisk stack).copySectors 0x800000 (sectorStart p.paddr)
      (p.paddr + p.filesz) (firstSector (int (uint32 p.offset))) mem drives
    let mem ← (byteDisk stack).clearBss (p.memsz - p.filesz) (p.paddr + p.filesz) mem
    return (mem, s)) := by
  have hle := hlow.filesz_le
  have haddr := hlow.addr_le
  have hfilesz : uint32 p.filesz = p.filesz := Nat.mod_eq_of_lt (by omega)
  have hmemsz : uint32 p.memsz = p.memsz := Nat.mod_eq_of_lt (by omega)
  have hpaddr : uint32 p.paddr = p.paddr := Nat.mod_eq_of_lt (by omega)
  have hbss : uint32 (p.paddr + p.filesz) = p.paddr + p.filesz := Nat.mod_eq_of_lt (by omega)
  have hrest : uint32 (p.memsz + 0x100000000 - p.filesz) = p.memsz - p.filesz := by
    unfold uint32
    omega
  unfold Loader.loadSegment Loader.loadProgram Loader.copyFromDisk
  rw [hfilesz, hmemsz, hpaddr, hbss, hrest]

theorem sectorCount_eq : sectorCount p.paddr p.filesz =
    (p.paddr + p.filesz - sectorStart p.paddr + (SECTSIZE - 1)) / SECTSIZE := by
  have hle := hlow.filesz_le
  have haddr := hlow.addr_le
  have hend : uint32 (p.paddr + p.filesz) = p.paddr + p.filesz := Nat.mod_eq_of_lt (by omega)
  rw [sectorCount, hend]

theorem sectorCount_lt : sectorCount p.paddr p.filesz < 0x800000 := by
  have hle := hlow.filesz_le
  have haddr := hlow.addr_le
  rw [sectorCount_eq hlow]
  unfold SECTSIZE
  omega

theorem loadSegment_kept (hkept : ∀ a, p.Stores a → ¬ (byteDisk stack).Own a) :
    (byteDisk stack).loadSegment p mem drives = some (segmentLoaded drives mem p, drives) := by
  have hle := hlow.filesz_le
  have haddr := hlow.addr_le
  rw [loadSegment_eq hlow, copySectors_kept (sectorStart_mod _) (by omega)
    (sectorCount_eq hlow) (sectorCount_lt hlow) fun a hfrom hto => hkept a (.inl ⟨hfrom, hto⟩)]
  simp only [Option.bind_eq_bind, Option.bind_some]
  rw [clearBss_kept (by omega) fun a hfrom hto => hkept a (.inr ⟨hfrom, by omega⟩)]
  refine congrArg (fun mem => some (mem, drives)) (funext fun a => ?_)
  have hend : p.paddr + p.filesz + (p.memsz - p.filesz) = p.paddr + p.memsz := by omega
  rw [sectorsRead_apply _ _ _ (firstSector_lt _), hend]
  rfl

theorem loadSegment_hits (hhits : ∃ a, p.Stores a ∧ (byteDisk stack).Own a) :
    (byteDisk stack).loadSegment p mem drives = none := by
  have hle := hlow.filesz_le
  have haddr := hlow.addr_le
  rw [loadSegment_eq hlow]
  by_cases hsectors : ∃ a, p.Sectors a ∧ (byteDisk stack).Own a
  · obtain ⟨a, ⟨hfrom, hto⟩, hown⟩ := hsectors
    rw [copySectors_hits (sectorStart_mod _) (by omega) (sectorCount_eq hlow)
      (sectorCount_lt hlow) ⟨a, hfrom, hto, hown⟩]
    rfl
  · obtain ⟨a, hstores, hown⟩ := hhits
    obtain ⟨hfrom, hto⟩ := hstores.resolve_left fun h => hsectors ⟨a, h, hown⟩
    rw [copySectors_kept (sectorStart_mod _) (by omega) (sectorCount_eq hlow)
      (sectorCount_lt hlow) fun b hfrom hto hown => hsectors ⟨b, ⟨hfrom, hto⟩, hown⟩]
    simp only [Option.bind_eq_bind, Option.bind_some]
    rw [clearBss_hits (by omega) ⟨a, hfrom, by omega, hown⟩]
    rfl

end Segment

/-! ## Several segments -/

def loadAll (drives : Drives) (mem : Memory) (ps : List Phdr) : Memory :=
  ps.foldl (segmentLoaded drives) mem

theorem loadAll_cons (mem : Memory) (p : Phdr) (ps : List Phdr) :
    loadAll drives mem (p :: ps) = loadAll drives (segmentLoaded drives mem p) ps :=
  rfl

theorem loadAll_append (mem : Memory) (before rest : List Phdr) :
    loadAll drives mem (before ++ rest) = loadAll drives (loadAll drives mem before) rest :=
  List.foldl_append

theorem loadAll_unchanged {ps : List Phdr} (hbss : ∀ q ∈ ps, ¬ q.Bss a)
    (hsectors : ∀ q ∈ ps, ¬ q.Sectors a) :
    loadAll drives mem ps a = mem a := by
  induction ps generalizing mem with
  | nil => rfl
  | cons q ps ih =>
      rw [loadAll_cons, ih (fun r hr => hbss r (List.mem_cons_of_mem q hr))
        (fun r hr => hsectors r (List.mem_cons_of_mem q hr)),
        segmentLoaded, if_neg (hbss q List.mem_cons_self), if_neg (hsectors q List.mem_cons_self)]

/-- The last segment whose sectors reach an address decides its byte, unless the address is
cleared. -/
theorem loadAll_last {before rest : List Phdr} {q : Phdr} (hbss : ∀ r ∈ q :: rest, ¬ r.Bss a)
    (hsectors : q.Sectors a) (hlast : ∀ r ∈ rest, ¬ r.Sectors a) :
    loadAll drives mem (before ++ q :: rest) a = q.brought drives a := by
  rw [loadAll_append, loadAll_cons,
    loadAll_unchanged (fun r hr => hbss r (List.mem_cons_of_mem q hr)) hlast, segmentLoaded,
    if_neg (hbss q List.mem_cons_self), if_pos hsectors]

theorem exists_last {α : Type} {P : α → Prop} {l : List α} (h : ∃ x ∈ l, P x) :
    ∃ before x rest, l = before ++ x :: rest ∧ P x ∧ ∀ y ∈ rest, ¬ P y := by
  induction l with
  | nil =>
      rcases h with ⟨x, hx, -⟩
      cases hx
  | cons y l ih =>
      by_cases hlater : ∃ x ∈ l, P x
      · rcases ih hlater with ⟨before, x, rest, rfl, hx, hrest⟩
        exact ⟨y :: before, x, rest, rfl, hx, hrest⟩
      · rcases h with ⟨x, hx, hP⟩
        rcases List.mem_cons.1 hx with rfl | hx
        · exact ⟨[], x, l, rfl, hP, fun z hz hPz => hlater ⟨z, hz, hPz⟩⟩
        · exact absurd ⟨x, hx, hP⟩ hlater

end OSLabs.Boot
