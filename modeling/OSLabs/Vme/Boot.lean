import OSLabs.Vme.Map

/-! # The kernel's tables

`vmeInit` finds the tables of `start64.S`, or builds its own with `ptwalk`. Either way
the top table has no entry for users and no walk from it leaves memory.
-/

namespace OSLabs.Vme

open OSLabs.Lib
open OSLabs.Lib.Heap

/-! ## The 64-bit configuration -/

theorem start_booted : Booted .x86_64 { start .x86_64 with kpt := pml4Addr } where
  page := by decide
  top := by
    refine ⟨_, rfl, ?_⟩
    intro i
    show (if i = 0 then pdptAddr ||| pteP ||| pteW else 0) &&& pteU = 0
    split <;> decide
  closed := by
    intro va
    have hpml4 : (start .x86_64).pages pml4Addr =
        some fun i => if i = 0 then pdptAddr ||| pteP ||| pteW else 0 := rfl
    have hpdpt : (start .x86_64).pages pdptAddr =
        some fun i => if i < 512 then (i <<< 30) ||| (pteP ||| pteW ||| ptePS) else 0 := rfl
    simp only [pageWalk, mmu, List.tail_cons]
    rw [show frame .x86_64 pml4Addr = pml4Addr by decide, pageWalkFrom]
    simp only [hpml4]
    by_cases htop : indexof va ⟨"PML4", 0xff8000000000, 39, 9⟩ = 0
    · have hindex : indexof va ⟨"PDPT", 0x007fc0000000, 30, 9⟩ < 512 :=
        indexof_lt (c := .x86_64) (by simp [mmu])
      have hlow : ∀ flag < 4096, flag &&& (pteP ||| pteW ||| ptePS) ≠ 0 →
          ((indexof va ⟨"PDPT", 0x007fc0000000, 30, 9⟩ <<< 30) |||
            (pteP ||| pteW ||| ptePS)) &&& flag ≠ 0 := by
        intro flag hlt hflag
        rw [or_and_flags (s := 12) (by rw [Nat.shiftLeft_eq]; omega) hlt, Nat.and_comm]
        exact hflag
      simp only [htop, if_true]
      rw [if_neg (by decide), if_neg (by decide),
        show frame .x86_64 (pdptAddr ||| pteP ||| pteW) = pdptAddr by decide, pageWalkFrom]
      simp only [hpdpt, if_pos hindex]
      rw [if_neg (hlow pteP (by decide) (by decide)),
        if_pos (Or.inr ⟨rfl, hlow ptePS (by decide) (by decide)⟩)]
      simp
    · simp [htop]

/-! ## The 32-bit configuration -/

/-- The tables that `vmeInit` builds: those of the address space on its stack. -/
def bootUse (c : Arch) : Use c where
  mask := pteP
  flags := pteW
  shared _ := False
  allowed _ := True
  mask_lt := by decide
  mask_p := by decide
  flags_lt := by decide
  flags_mask := by decide
  root_mask := (userUse c).mask_p
  unshared _ h := h

variable {c : Arch} {σ σ' : State}

/-- A loop whose turns panic or establish `I'`, given `I`. -/
theorem foldlM_spec (I I' : State → Prop) (weaken : ∀ σ, I' σ → I σ)
    {step : State → Nat → Except Halt State}
    (turn : ∀ σ a, I σ → (∃ text, step σ a = .error (.panic text)) ∨
      ∃ σ', step σ a = .ok σ' ∧ I' σ')
    (l : List Nat) (hne : l ≠ []) (hσ : I σ) :
    (∃ text, l.foldlM step σ = .error (.panic text)) ∨
      ∃ σ', l.foldlM step σ = .ok σ' ∧ I' σ' := by
  induction l generalizing σ with
  | nil => exact absurd rfl hne
  | cons a l ih =>
      rw [List.foldlM_cons]
      rcases turn σ a hσ with ⟨text, herr⟩ | ⟨σ₁, hok, hσ₁⟩
      · exact Or.inl ⟨text, by rw [herr]; rfl⟩
      · rw [hok]
        cases l with
        | nil => exact Or.inr ⟨σ₁, rfl, hσ₁⟩
        | cons b l => exact ih (by simp) (weaken _ hσ₁)

/-- The tables of the boot address space, and its top table once there is one. -/
def BootTables (c : Arch) (σ : State) : Prop := Rooted (bootUse c) (· = bootSpace) σ.heap

def BootTop (c : Arch) (σ : State) : Prop :=
  BootTables c σ ∧ ∃ q, descend (next (bootUse c)) σ.heap (.space bootSpace) [0] = some (.page q)

theorem bootTables_empty {a : AddrSpace} (ha : a.ptr = 0)
    (hspaces : σ.spaces bootSpace = some a) : BootTables c σ := by
  have hroot : σ.heap (.space bootSpace) = some fun _ => 0 := by
    simp [State.heap, hspaces, ha]
  have hdesc : ∀ {π b}, descend (next (bootUse c)) σ.heap (.space bootSpace) π = some b →
      π = [] ∧ b = .space bootSpace := by
    intro π b hb
    cases π with
    | nil => exact ⟨rfl, (Option.some.inj hb).symm⟩
    | cons i π => simp [descend, hroot] at hb
  constructor
  · constructor
    · intro r π b hr _ hb
      rcases hr with ⟨as, rfl, rfl⟩
      exact ⟨_, (hdesc hb).2 ▸ hroot⟩
    · intro r r' π π' b hr hr' _ _ hb hb'
      rcases hr with ⟨as, rfl, rfl⟩
      rcases hr' with ⟨as', rfl, rfl⟩
      exact ⟨rfl, (hdesc hb).1.trans (hdesc hb').1.symm⟩
  · intro as has
    rw [has]
    constructor
    · intro π b t i _ hb ht _
      rw [(hdesc hb).2, hroot] at ht
      exact Or.inl (by rw [← Option.some.inj ht])
    · intro π b _ hb
      exact ⟨0, trivial, by rw [(hdesc hb).1]; rfl⟩

def bootTurn (c : Arch) (pgalloc : Pgalloc c) (σ : State) (cur : Nat) : Except Halt State := do
  let (ptentry, σ) ← ptwalk c pgalloc bootSpace cur pteW σ
  store σ ptentry.1 ptentry.2 (cur ||| pteP ||| pteW)

theorem bootTurn_spec (pgalloc : Pgalloc c) (σ : State) (cur : Nat) (hσ : BootTables c σ) :
    (∃ text, bootTurn c pgalloc σ cur = .error (.panic text)) ∨
      ∃ σ', bootTurn c pgalloc σ cur = .ok σ' ∧ BootTop c σ' := by
  have hwalk := ptwalk_spec pgalloc bootSpace cur hσ rfl trivial
  have hflags : (bootUse c).flags = pteW := rfl
  rw [hflags] at hwalk
  rcases hwalk with ⟨text, herr⟩ | ⟨loc, σ₁, ps, hok, hw⟩
  · exact Or.inl ⟨text, by simp only [bootTurn, herr]; rfl⟩
  · have hlen := path_length c cur
    rcases hw.grown.rooted.ranked.alloc (Roots.intro rfl) (Nat.le_of_eq hlen) hw.table with ⟨t, ht⟩
    have hroot : ∀ as, loc.1 = .space as → loc.2 = 0 := by
      intro as has
      have htable := hw.table
      rw [has] at htable
      rw [(descend_space htable).1] at hlen
      cases c <;> cases hlen
    rcases store_spec ht hroot (cur ||| pteP ||| pteW) with ⟨σ₂, hstore, hheap, _, _, _⟩
    have hrooted : BootTables c σ₂ := by
      rw [BootTables, hheap]
      exact hw.grown.rooted.put_leaf rfl hlen hw.table
    refine Or.inr ⟨σ₂, by simp only [bootTurn, hok, bind, Except.bind, hstore], hrooted, ?_⟩
    -- the path of `cur` passes through the top table
    have hsplit : ∃ ρ, path c cur = [0] ++ ρ := by
      cases c with
      | x86_64 => exact ⟨_, by simp [path, indices, mmu, indexof]; rfl⟩
      | i386 => exact ⟨_, by simp [path, indices, mmu, indexof]; rfl⟩
    rcases hsplit with ⟨ρ, hρ⟩
    have htable := hw.table
    rw [hρ] at htable
    rcases descend_prefix htable with ⟨b, hb, _⟩
    have hb₂ : descend (next (bootUse c)) σ₂.heap (.space bootSpace) [0] = some b := by
      rw [hheap, descend_put_leaf hw.grown.rooted.ranked (Roots.intro rfl) hlen hw.table
        (Roots.intro rfl) (by cases c <;> decide)]
      exact hb
    cases b with
    | space as => cases (descend_space hb).1
    | page q => exact ⟨q, hb₂⟩

/-- With a top table, the boot address space is a kernel table. -/
theorem BootTop.booted (hσ : BootTop .i386 σ) : ∃ ptr, load σ (.space bootSpace) 0 = .ok ptr ∧
    ∀ spaces, Booted .i386 { σ with kpt := baseof .i386 ptr, spaces := spaces } := by
  rcases hσ with ⟨hrooted, q, hq⟩
  rcases hrooted.ranked.alloc (π := []) (Roots.intro rfl) (Nat.zero_le _) rfl with ⟨t₀, ht₀⟩
  rcases hrooted.ranked.alloc (Roots.intro rfl) (by decide) hq with ⟨t, ht⟩
  have hpages : σ.pages q = some t := ht
  have hshape := hrooted.shaped rfl
  have hroot : Points (bootUse .i386) [] (t₀ 0) q := by
    have hnext : next (bootUse .i386) (t₀ 0) = some (.page q) := by
      simpa [descend, ht₀] using hq
    rcases hshape.inner (π := []) (by decide) rfl ht₀ (fun _ h => h) with hzero | ⟨q', hq'⟩
    · rw [hzero, next_zero] at hnext
      cases hnext
    · rwa [← Base.page.inj (Option.some.inj (hq'.next.symm.trans hnext))]
  have hentry : ∀ i, t i = 0 ∨ ∃ q', Points (bootUse .i386) [0] (t i) q' :=
    fun i => hshape.inner (by decide) hq ht fun _ h => h
  have hpage : IsPage .i386 q := by
    cases hroot with
    | walked hq _ => exact hq
    | root hq _ _ => exact hq
  refine ⟨t₀ 0, load_eq ht₀ 0, ?_⟩
  intro spaces
  rw [hroot.baseof]
  constructor
  · exact hpage
  · refine ⟨t, ht, ?_⟩
    intro i
    rcases hentry i with hzero | ⟨q', hq'⟩
    · rw [hzero, Nat.zero_and]
    · cases hq' with
      | walked hq' he =>
          rw [he, hq'.and_flags (by decide)]
          show (pteP ||| pteW) &&& pteU = 0
          decide
      | root _ hnil _ => cases hnil
  · intro va
    simp only [pageWalk, mmu, List.tail_cons]
    rw [frame_page hpage.2.1 hpage.2.2, pageWalkFrom]
    simp only [hpages]
    rcases hentry (indexof va ⟨"PD", 0xffc00000, 22, 10⟩) with hzero | ⟨q', hq'⟩
    · simp [hzero]
    · have hdesc : descend (next (bootUse .i386)) σ.heap (.space bootSpace)
          ([0] ++ [indexof va ⟨"PD", 0xffc00000, 22, 10⟩]) = some (.page q') := by
        rw [descend_snoc, hq, Option.bind_some, ht, Option.bind_some, hq'.next]
      rcases hrooted.ranked.alloc (Roots.intro rfl) (by simp [mmu]) hdesc with ⟨t', ht'⟩
      have hpages' : σ.pages q' = some t' := ht'
      rw [if_neg hq'.present, if_neg (by simp [largePage]), hq'.frame, pageWalkFrom]
      simp only [hpages', true_or, if_true]
      split <;> simp

/-! ## Both configurations -/

theorem loopAddrs_ne_nil {step stop fuel cur : Nat} (hfuel : 0 < fuel) (hne : cur ≠ stop) :
    loopAddrs c step stop fuel cur ≠ [] := by
  cases fuel with
  | zero => omega
  | succ fuel => simp [loopAddrs, hne]

theorem kernelAddrs_ne_nil : kernelAddrs .i386 (mmu .i386).pgsize ≠ [] := by
  intro h
  have hfirst := List.flatMap_eq_nil_iff.1 h ⟨⟨0x00000000, 0x40000000⟩, true⟩ (by decide)
  exact loopAddrs_ne_nil (by decide) (by decide) hfirst

/-- `vmeInit` fails with a panic only, and leaves the tables of the kernel. -/
theorem vmeInit_spec (c : Arch) (pgalloc : Pgalloc c) (cpu : Nat) :
    (∃ text, vmeInit c pgalloc cpu (start c) = .error (.panic text)) ∨
      ∃ σ₀, vmeInit c pgalloc cpu (start c) = .ok σ₀ ∧ Booted c σ₀ := by
  by_cases hcpu : cpu = 0
  · cases c with
    | x86_64 => exact Or.inr ⟨_, by simp [vmeInit, hcpu], start_booted⟩
    | i386 =>
        have hstart : BootTables .i386 { start .i386 with
            spaces := Function.update (start .i386).spaces bootSpace
              (some ⟨0, ⟨0, 0⟩, 0⟩) } :=
          bootTables_empty (a := ⟨0, ⟨0, 0⟩, 0⟩) rfl (by simp)
        have hloop := foldlM_spec (BootTables .i386) (BootTop .i386)
          (fun _ h => h.1) (fun σ cur h => bootTurn_spec pgalloc σ cur h) _
          kernelAddrs_ne_nil hstart
        rcases hloop with ⟨text, herr⟩ | ⟨σ, hok, htop⟩
        · refine Or.inl ⟨text, ?_⟩
          rw [vmeInit, if_neg (by simp [hcpu]), if_neg (by decide)]
          change (List.foldlM (bootTurn .i386 pgalloc) _ _ >>= _) = _
          rw [herr]
          rfl
        · rcases htop.booted with ⟨ptr, hptr, hbooted⟩
          refine Or.inr ⟨_, ?_, hbooted (Function.update σ.spaces bootSpace none)⟩
          rw [vmeInit, if_neg (by simp [hcpu]), if_neg (by decide)]
          change (List.foldlM (bootTurn .i386 pgalloc) _ _ >>= _) = _
          rw [hok]
          change (load σ (.space bootSpace) 0 >>= _) = _
          rw [hptr]
          rfl
  · exact Or.inl ⟨_, by rw [vmeInit, if_pos hcpu]⟩

end OSLabs.Vme
