import OSLabs.Lib.Masks
import OSLabs.Vme.Model

/-! # Words of the page tables

An entry keeps the base address and the flags that were put into it, and the masks and
shifts of both configurations cut an address into consecutive indices. The level-1
indices of the user area are not those of the kernel areas.
-/

namespace OSLabs.Vme

open OSLabs.Lib

variable {c : Arch} {p q f m va va' i : Nat}

/-! ## Entries -/

theorem pgsize_eq (c : Arch) : (mmu c).pgsize = 4096 := by cases c <;> rfl

theorem rounddown_mask (c : Arch) : 2 ^ c.width - 4096 = (2 ^ (c.width - 12) - 1) <<< 12 := by
  cases c <;> decide

theorem frame_mask (c : Arch) : 2 ^ c.physical - 4096 = (2 ^ (c.physical - 12) - 1) <<< 12 := by
  cases c <;> decide

theorem aligned_of_rounddown (h : p = rounddown c p 4096) : p % 4096 = 0 := by
  rw [rounddown, rounddown_mask, and_fieldMask, Nat.shiftLeft_eq] at h
  omega

theorem rounddown_eq (hlt : p < 2 ^ c.width) : rounddown c p 4096 = p - p % 4096 := by
  have hwidth : 12 + (c.width - 12) = c.width := by cases c <;> rfl
  rw [rounddown, rounddown_mask, and_fieldMask_of_lt (by rwa [hwidth])]
  rfl

theorem IsPage.aligned (hq : IsPage c q) : q % 2 ^ 12 = 0 := hq.2.1

theorem IsPage.lt_width (hq : IsPage c q) : q < 2 ^ c.width := by
  have := hq.2.2
  cases c <;> simp only [Arch.physical, Arch.width] at * <;> omega

theorem IsPage.and_flags (hq : IsPage c q) (hm : m < 4096) : (q ||| f) &&& m = f &&& m :=
  or_and_flags hq.aligned hm

theorem baseof_page (hq : IsPage c q) (hf : f < 4096) : baseof c (q ||| f) = q := by
  have hplain := rounddown_eq hq.lt_width
  rw [hq.2.1, Nat.sub_zero] at hplain
  rw [baseof, pgsize_eq, rounddown, rounddown_mask, or_and_fieldMask hf, ← rounddown_mask]
  exact hplain

theorem frame_or (hf : f < 4096) (e : Nat) : frame c (e ||| f) = frame c e := by
  rw [frame, frame, frame_mask, or_and_fieldMask hf]

/-- A physical page is what the address field of its own address says. -/
theorem frame_page (haligned : q % 4096 = 0) (hlt : q < 2 ^ c.physical) : frame c q = q := by
  have hwidth : 12 + (c.physical - 12) = c.physical := by cases c <;> rfl
  rw [frame, frame_mask, and_fieldMask_of_lt (by rwa [hwidth])]
  simp [haligned]

theorem frame_aligned (c : Arch) (e : Nat) : (frame c e >>> 12) <<< 12 = frame c e := by
  rw [frame, frame_mask, and_fieldMask, Nat.shiftLeft_shiftRight]

/-! ## Indices -/

theorem indexof_eq {info : PtInfo} (hinfo : info ∈ (mmu c).pgtables) (va : Nat) :
    indexof va info = va / 2 ^ info.shift % 2 ^ info.bits := by
  have hmask : info.mask = (2 ^ info.bits - 1) <<< info.shift := by
    cases c with
    | x86_64 =>
        simp only [mmu, List.mem_cons, List.not_mem_nil, or_false] at hinfo
        rcases hinfo with rfl | rfl | rfl | rfl | rfl <;> decide
    | i386 =>
        simp only [mmu, List.mem_cons, List.not_mem_nil, or_false] at hinfo
        rcases hinfo with rfl | rfl | rfl <;> decide
  rw [indexof, hmask, field_eq]

theorem indexof_lt {info : PtInfo} (hinfo : info ∈ (mmu c).pgtables) :
    indexof va info < 2 ^ info.bits := by
  rw [indexof_eq hinfo]
  exact Nat.mod_lt _ (Nat.two_pow_pos _)

def indices (c : Arch) (va : Nat) : List Nat := (mmu c).pgtables.map (indexof va)

/-- The path to the last table, and the index in it. -/
def path (c : Arch) (va : Nat) : List Nat := (indices c va).dropLast

def leafIndex (c : Arch) (va : Nat) : Nat := (indices c va).getLastD 0

def topIndex (c : Arch) (va : Nat) : Nat := indexof va (level1 c)

theorem pgtables_length (c : Arch) : (mmu c).pgtables.length = (mmu c).ptlevels + 1 := by
  cases c <;> rfl

theorem indices_length (c : Arch) (va : Nat) : (indices c va).length = (mmu c).ptlevels + 1 := by
  rw [indices, List.length_map, pgtables_length]

theorem path_length (c : Arch) (va : Nat) : (path c va).length = (mmu c).ptlevels := by
  rw [path, List.length_dropLast, indices_length]
  rfl

theorem indices_eq (c : Arch) (va : Nat) : indices c va = path c va ++ [leafIndex c va] := by
  cases c <;> rfl

theorem indices_top (c : Arch) (va : Nat) : (indices c va)[1]? = some (topIndex c va) := by
  cases c <;> rfl

theorem indices_root (c : Arch) (va : Nat) : (indices c va)[0]? = some 0 := by
  cases c <;> simp [indices, mmu, indexof]

def Arch.linear : Arch → Nat
  | x86_64 => 48
  | i386 => 32

/-- Addresses with the same indices lie in the same page. -/
theorem indices_inj (hva : va < 2 ^ c.linear) (hva' : va' < 2 ^ c.linear)
    (h : indices c va = indices c va') : va / 4096 = va' / 4096 := by
  have hindex : ∀ info ∈ (mmu c).pgtables,
      va / 2 ^ info.shift % 2 ^ info.bits = va' / 2 ^ info.shift % 2 ^ info.bits := by
    intro info hinfo
    rw [← indexof_eq hinfo, ← indexof_eq hinfo]
    exact List.map_inj_left.1 h info hinfo
  cases c with
  | x86_64 =>
      simp only [mmu, List.forall_mem_cons] at hindex
      simp only [Arch.linear] at hva hva'
      omega
  | i386 =>
      simp only [mmu, List.forall_mem_cons] at hindex
      simp only [Arch.linear] at hva hva'
      omega

/-! ## Areas -/

/-- `va` lies in the area, whose end may have wrapped around. -/
def covers (c : Arch) (a : Area) (va : Nat) : Prop :=
  (va + 2 ^ c.width - a.start) % 2 ^ c.width < (a.stop + 2 ^ c.width - a.start) % 2 ^ c.width

def InKernelArea (c : Arch) (va : Nat) : Prop :=
  va < 2 ^ c.width ∧ ∃ vma ∈ vmAreas c, vma.kernel = true ∧ covers c vma.area va

def UserTop : Arch → Nat → Prop
  | .x86_64, i => i = 32
  | .i386, i => 256 ≤ i ∧ i < 512

def KernelTop : Arch → Nat → Prop
  | .x86_64, i => i = 0
  | .i386, i => i < 256 ∨ 1012 ≤ i ∧ i < 1024

instance : DecidablePred (KernelTop c) := by
  intro i
  cases c
  · exact inferInstanceAs (Decidable (i = 0))
  · exact inferInstanceAs (Decidable (i < 256 ∨ 1012 ≤ i ∧ i < 1024))

theorem UserTop.not_kernelTop (h : UserTop c i) : ¬KernelTop c i := by
  cases c <;> simp only [UserTop, KernelTop] at * <;> omega

theorem topIndex_eq (c : Arch) (va : Nat) :
    topIndex c va = va / 2 ^ (level1 c).shift % 2 ^ (level1 c).bits :=
  indexof_eq (c := c) (by cases c <;> decide) va

theorem userTop_iff (hva : va < 2 ^ c.linear) :
    UserTop c (topIndex c va) ↔ inRange va (uvmArea c) := by
  rw [topIndex_eq]
  cases c <;>
    simp only [UserTop, level1, mmu, uvmArea, vmAreas, inRange, Arch.linear] at * <;> omega

theorem lt_linear_of_inRange (h : inRange va (uvmArea c)) : va < 2 ^ c.linear := by
  cases c <;> simp only [uvmArea, vmAreas, inRange, Arch.linear] at * <;> omega

theorem userTop_of_inRange (h : inRange va (uvmArea c)) : UserTop c (topIndex c va) :=
  (userTop_iff (lt_linear_of_inRange h)).2 h

theorem kernelTop_iff (hva : va < 2 ^ c.linear) :
    KernelTop c (topIndex c va) ↔ InKernelArea c va := by
  rw [topIndex_eq]
  cases c with
  | x86_64 =>
      simp only [KernelTop, level1, mmu, InKernelArea, vmAreas, covers, List.mem_cons,
        List.not_mem_nil, or_false, Arch.linear, Arch.width, exists_eq_or_imp, exists_eq_left] at *
      simp
      omega
  | i386 =>
      simp only [KernelTop, level1, mmu, InKernelArea, vmAreas, covers, List.mem_cons,
        List.not_mem_nil, or_false, Arch.linear, Arch.width, exists_eq_or_imp, exists_eq_left] at *
      simp
      omega

theorem InKernelArea.lt_linear (h : InKernelArea c va) : va < 2 ^ c.linear := by
  cases c with
  | x86_64 =>
      simp only [InKernelArea, vmAreas, covers, List.mem_cons, List.not_mem_nil, or_false,
        Arch.linear, Arch.width, exists_eq_or_imp, exists_eq_left] at *
      simp at h
      omega
  | i386 => exact h.1

theorem kernelAddrs_top (c : Arch) (i : Nat) :
    (∃ cur ∈ kernelAddrs c (2 ^ (level1 c).shift), indexof cur (level1 c) = i) ↔
      KernelTop c i := by
  have hlist : (kernelAddrs c (2 ^ (level1 c).shift)).map (indexof · (level1 c)) =
      match c with
      | .x86_64 => [0]
      | .i386 => List.range 256 ++ (List.range 12).map (1012 + ·) := by
    cases c <;> decide +kernel
  rw [← List.mem_map (f := (indexof · (level1 c))), hlist]
  cases c with
  | x86_64 => simp [KernelTop]
  | i386 =>
      simp only [KernelTop, List.mem_append, List.mem_range, List.mem_map]
      constructor
      · intro h
        rcases h with h | ⟨j, hj, rfl⟩
        · exact Or.inl h
        · exact Or.inr (by omega)
      · intro h
        rcases h with h | h
        · exact Or.inl h
        · exact Or.inr ⟨i - 1012, by omega, by omega⟩

end OSLabs.Vme
