import OSLabs.Disk.Serving

/-! # The boot loader at the controller

The boot loader has its own driver, which only reads. With it `load_kernel` does what it does
with a disk that is an array of bytes.
-/

namespace OSLabs.Disk.Loader

open Boot (Memory Drives SECTSIZE)

/-! ## From the source -/

def readDisk (buf sect : Nat) (mem : Memory) (a : Ata) : Option (Memory × Ata) := do
  let a ← command sect 0x20 (waitDisk a)
  readWords (SECTSIZE / 4) buf mem (waitDisk a)

def ataDisk (stack : Nat) : Boot.Loader Ata where
  readDisk
  stack

/-! ## Two disks -/

section Two

variable {σ τ α : Type} {R : σ → τ → Prop}

def Same (R : σ → τ → Prop) (x : α × σ) (y : α × τ) : Prop := x.1 = y.1 ∧ R x.2 y.2

theorem rel_bind {α β γ δ : Type} {P : α → β → Prop} {Q : γ → δ → Prop} {x : Option α}
    {y : Option β} {f : α → Option γ} {g : β → Option δ} (hx : Option.Rel P x y)
    (hf : ∀ a b, P a b → Option.Rel Q (f a) (g b)) : Option.Rel Q (x >>= f) (y >>= g) := by
  cases hx with
  | none => exact .none
  | some h => exact hf _ _ h

/-- Two loaders with the same stack, one of which reads what the other one reads. -/
structure Follows (R : σ → τ → Prop) (l : Boot.Loader σ) (l' : Boot.Loader τ) : Prop where
  stack : l.stack = l'.stack
  readDisk : ∀ buf sect mem {s t}, R s t →
    Option.Rel (Same R) (l.readDisk buf sect mem s) (l'.readDisk buf sect mem t)

namespace Follows

variable {l : Boot.Loader σ} {l' : Boot.Loader τ} (follows : Follows R l l') {s : σ} {t : τ}
include follows

theorem free_iff (a n : Nat) : l.Free a n ↔ l'.Free a n := by
  unfold Boot.Loader.Free
  rw [follows.stack]

theorem copySectors (fuel cur ed sect : Nat) (mem : Memory) (hst : R s t) :
    Option.Rel (Same R) (l.copySectors fuel cur ed sect mem s)
      (l'.copySectors fuel cur ed sect mem t) := by
  induction fuel generalizing cur sect mem s t with
  | zero => exact .none
  | succ fuel ih =>
      rw [Boot.Loader.copySectors, Boot.Loader.copySectors]
      by_cases hlt : cur < ed
      · rw [if_pos hlt, if_pos hlt]
        by_cases hfree : l.Free cur SECTSIZE
        · rw [if_pos hfree, if_pos ((follows.free_iff _ _).1 hfree)]
          apply rel_bind (follows.readDisk cur sect mem hst)
          rintro ⟨mem', s'⟩ ⟨_, t'⟩ ⟨rfl, hst'⟩
          exact ih _ _ _ hst'
        · rw [if_neg hfree, if_neg fun h => hfree ((follows.free_iff _ _).2 h)]
          exact .none
      · rw [if_neg hlt, if_neg hlt]
        exact .some ⟨rfl, hst⟩

theorem clearBss (n bss : Nat) (mem : Memory) : l.clearBss n bss mem = l'.clearBss n bss mem := by
  induction n generalizing bss mem with
  | zero => rfl
  | succ n ih =>
      rw [Boot.Loader.clearBss, Boot.Loader.clearBss]
      by_cases hfree : l.Free bss 1
      · rw [if_pos hfree, if_pos ((follows.free_iff _ _).1 hfree), ih]
      · rw [if_neg hfree, if_neg fun h => hfree ((follows.free_iff _ _).2 h)]

theorem loadProgram (filesz memsz paddr offset : Nat) (mem : Memory) (hst : R s t) :
    Option.Rel (Same R) (l.loadProgram filesz memsz paddr offset mem s)
      (l'.loadProgram filesz memsz paddr offset mem t) := by
  apply rel_bind (follows.copySectors _ _ _ _ mem hst)
  rintro ⟨mem', s'⟩ ⟨_, t'⟩ ⟨rfl, hst'⟩
  dsimp only
  rw [follows.clearBss]
  cases l'.clearBss _ _ mem' with
  | none => exact .none
  | some mem'' => exact .some ⟨rfl, hst'⟩

/-- The next header is read from the memory that the last segment has left. -/
theorem loadLoop (c : Boot.Format) (elf fuel i ph : Nat) (mem : Memory) (hst : R s t) :
    Option.Rel (Same R) (l.loadLoop c elf fuel i ph mem s)
      (l'.loadLoop c elf fuel i ph mem t) := by
  induction fuel generalizing i ph mem s t with
  | zero => exact .some ⟨rfl, hst⟩
  | succ fuel ih =>
      rw [Boot.Loader.loadLoop, Boot.Loader.loadLoop]
      by_cases hi : i < c.e_phnum.read (Boot.at32 mem) elf
      · rw [if_pos hi, if_pos hi]
        apply rel_bind (follows.loadProgram _ _ _ _ mem hst)
        rintro ⟨mem', s'⟩ ⟨_, t'⟩ ⟨rfl, hst'⟩
        exact ih _ _ _ hst'
      · rw [if_neg hi, if_neg hi]
        exact .some ⟨rfl, hst⟩

theorem loadImage (mem : Memory) (hst : R s t) :
    Option.Rel (Same R) (l.loadImage mem s) (l'.loadImage mem t) := by
  apply rel_bind (follows.copySectors _ _ _ _ mem hst)
  rintro ⟨mem₁, s₁⟩ ⟨_, t₁⟩ ⟨rfl, hst₁⟩
  apply rel_bind (follows.copySectors _ _ _ _ mem₁ hst₁)
  rintro ⟨mem₂, s₂⟩ ⟨_, t₂⟩ ⟨rfl, hst₂⟩
  dsimp only
  by_cases hmachine : Boot.machine mem₂ = Boot.EM_X86_64
  · rw [if_pos hmachine, if_pos hmachine]
    exact follows.loadLoop .elf64 _ _ _ _ mem₂ hst₂
  · rw [if_neg hmachine, if_neg hmachine]
    exact follows.loadLoop .elf32 _ _ _ _ mem₂ hst₂

theorem loadKernel (mem : Memory) (hst : R s t) :
    Option.Rel (Same R) (l.loadKernel mem s) (l'.loadKernel mem t) := by
  unfold Boot.Loader.loadKernel
  by_cases hap : Boot.readLE mem (Boot.BOOTREC_ADDR + 4) 4 = 0
  · simp only [if_pos hap]
    apply rel_bind (follows.loadImage mem hst)
    rintro ⟨mem', s'⟩ ⟨_, t'⟩ ⟨rfl, hst'⟩
    exact .some ⟨rfl, hst'⟩
  · simp only [if_neg hap]
    exact .some ⟨rfl, hst⟩

end Follows

end Two

/-! ## The controller -/

/-- The array holds these bytes, and so do the drives of the controller, which has done all
requests. -/
def Holds (bytes drives : Drives) (a : Ata) : Prop :=
  drives = bytes ∧ a.Resting ∧ a.drives = bytes

theorem ataDisk_follows (stack : Nat) (bytes : Drives) :
    Follows (Holds bytes) (Boot.byteDisk stack) (ataDisk stack) where
  stack := rfl
  readDisk := by
    rintro buf sect mem drives a ⟨rfl, hrest, rfl⟩
    obtain ⟨b, c, hcommand, hwords, hidle, hdrives⟩ := readSector_eq sect buf mem hrest
    have hread : readDisk buf sect mem a = some (Boot.readDisk a.drives mem buf sect, c) := by
      simp only [readDisk, hcommand, Option.bind_eq_bind, Option.bind_some]
      exact hwords
    show Option.Rel _ (some _) (readDisk buf sect mem a)
    rw [hread]
    exact .some ⟨rfl, rfl, hidle, hdrives⟩

/-- However long the controller takes, the boot loader never accesses it while it is busy. It
comes to its end where the loader with an array of bytes for a disk does, and then leaves the
same memory, calls the same address and leaves the drives as they are. -/
theorem loadKernel_refines {a : Ata} (hrest : a.Resting) (stack : Nat) (mem : Memory) :
    Option.Rel (Same (Holds a.drives)) ((Boot.byteDisk stack).loadKernel mem a.drives)
      ((ataDisk stack).loadKernel mem a) :=
  (ataDisk_follows stack a.drives).loadKernel mem ⟨rfl, hrest, rfl⟩

theorem loadKernel_refines_slowDisk :
    Option.Rel (Same (Holds fun _ _ => 0))
      ((Boot.byteDisk 0x9000).loadKernel (fun _ => 0) fun _ _ => 0)
      ((ataDisk 0x9000).loadKernel (fun _ => 0) slowDisk) :=
  loadKernel_refines (a := slowDisk) rfl _ _

end OSLabs.Disk.Loader
