import OSLabs.Vme.Map

/-! # What the processor sees

The walk from the `ptr` of an address space, computed from its map alone: the mapped
page in the user area, the kernel's own walk in the kernel areas, nothing elsewhere.
-/

namespace OSLabs.Vme

open OSLabs.Lib
open OSLabs.Lib.Heap

variable {c : Arch} {σ₀ σ : State} {m : Spaces} {tables : Nat → List Nat} {as va : Nat}
  {f : Nat → Option Mapping}

def spaceWalk (c : Arch) (σ : State) (as va : Nat) : Walk :=
  match σ.spaces as with
  | some a => pageWalk c σ a.ptr va
  | none => .wild

def leafOf (c : Arch) (mp : Mapping) : Leaf where
  entry := pte mp.pa mp.prot
  page := frame c mp.pa
  shift := 12
  writable := decide (mp.prot &&& mmapWrite ≠ 0)
  user := true

def walkOf (c : Arch) : Option Mapping → Walk
  | none => .absent
  | some mp => .present (leafOf c mp)

/-! ## The kernel's walks -/

theorem pageWalkFrom_congr (kernel : ∀ {p t}, σ₀.pages p = some t → σ.pages p = some t)
    (infos : List PtInfo) {base : Nat} {w u : Bool}
    (hclosed : pageWalkFrom c σ₀ va infos base w u ≠ .wild) :
    pageWalkFrom c σ va infos base w u = pageWalkFrom c σ₀ va infos base w u := by
  induction infos generalizing base w u with
  | nil => rfl
  | cons info rest ih =>
      cases ht : σ₀.pages base with
      | none => simp [pageWalkFrom, ht] at hclosed
      | some t =>
          simp only [pageWalkFrom, ht] at hclosed ⊢
          simp only [kernel ht]
          split
          · rfl
          · split
            · rfl
            · rw [if_neg ‹_›, if_neg ‹_›] at hclosed
              exact ih hclosed

theorem Refines.kernelWalk (hboot : Booted c σ₀) (ref : Refines c σ₀ m tables σ) (va : Nat) :
    pageWalk c σ σ.kpt va = pageWalk c σ₀ σ₀.kpt va := by
  rw [ref.kpt]
  exact pageWalkFrom_congr ref.kernel _ (hboot.closed va)

theorem walkLevels (c : Arch) : ∃ rest, (mmu c).pgtables.tail = level1 c :: rest ∧ rest ≠ [] ∧
    largePage c (level1 c) = false ∧
    ∀ va, [0] ++ (level1 c :: rest).map (indexof va) = indices c va := by
  cases c with
  | x86_64 => exact ⟨_, rfl, by simp, rfl, fun va => by simp [indices, mmu, level1, indexof]⟩
  | i386 => exact ⟨_, rfl, by simp, rfl, fun va => by simp [indices, mmu, level1, indexof]⟩

theorem Refines.spaceWalk_eq (ref : Refines c σ₀ m tables σ) (hf : m as = some f) :
    ∃ q t, descend (next (userUse c)) σ.heap (.space as) [0] = some (.page q) ∧
      σ.pages q = some t ∧
      (∀ {kt i}, σ₀.pages σ₀.kpt = some kt → KernelTop c i → t i = kt i) ∧
      ∀ va, spaceWalk c σ as va = pageWalkFrom c σ va (mmu c).pgtables.tail q true true := by
  rcases (ref.holds hf).top with ⟨q, t, hq, ht, htop⟩
  refine ⟨q, t, hq, ht, htop, ?_⟩
  intro va
  cases ha : σ.spaces as with
  | none => simp [Heap.descend, State.heap, ha] at hq
  | some a =>
      have hroot : σ.heap (.space as) = some fun i => if i = 0 then a.ptr else 0 := by
        simp [State.heap, ha]
      have hnext : next (userUse c) a.ptr = some (.page q) := by
        simpa [Heap.descend, hroot] using hq
      have hinner := (ref.rooted.shaped (.intro hf)).inner (π := []) (i := 0)
        (by cases c <;> decide) rfl hroot (by simp)
      rcases hinner with hzero | ⟨q', hq'⟩
      · rw [show a.ptr = 0 by simpa using hzero] at hnext
        simp at hnext
      · have hp : Points (userUse c) [] a.ptr q' := by simpa using hq'
        have heq : q' = q := Base.page.inj (Option.some.inj (hp.next.symm.trans hnext))
        simp only [spaceWalk, ha, pageWalk]
        rw [hp.frame, heq]

theorem Refines.spaceWalk_kernel (hboot : Booted c σ₀) (ref : Refines c σ₀ m tables σ)
    (hf : m as = some f) (hva : KernelTop c (topIndex c va)) :
    spaceWalk c σ as va = pageWalk c σ σ.kpt va := by
  rcases ref.spaceWalk_eq hf with ⟨q, t, hq, ht, htop, hwalk⟩
  rcases hboot.top with ⟨kt, hkt₀, _⟩
  have hkt := ref.kernel hkt₀
  rcases walkLevels c with ⟨rest, hlevels, _, _, _⟩
  rw [hwalk, pageWalk, hlevels, ref.kpt, frame_page hboot.page.2.1 hboot.page.2.2]
  simp only [pageWalkFrom, ht, hkt]
  rw [← topIndex, htop hkt₀ hva]

/-! ## The user area -/

/-- The flags of an entry that `ptwalk` made grant everything, and it is no large page. -/
theorem Points.flags {π : List Nat} {e q : Nat} (h : Points (userUse c) π e q) (hπ : π ≠ []) :
    e &&& pteW ≠ 0 ∧ e &&& pteU ≠ 0 ∧ e &&& ptePS = 0 := by
  cases h with
  | walked hq he =>
      have hmask := fun {flag} (hlt : flag < 4096) => hq.and_flags (f := 7) hlt
      have hflags : pteP ||| (userUse c).flags = 7 := by
        show pteP ||| (pteW ||| pteU) = 7
        decide
      rw [he, hflags, hmask (by decide), hmask (by decide), hmask (by decide)]
      decide
  | root _ hroot _ => exact absurd hroot hπ

theorem pageWalkFrom_leaf {info : PtInfo} {q : Nat} {t : Nat → Nat} {x : Option Mapping}
    (hpages : σ.pages q = some t) (hentry : t (indexof va info) = entryOf x)
    (haligned : ∀ mp, x = some mp → mp.pa % 4096 = 0) (hshift : info.shift = 12) :
    pageWalkFrom c σ va [info] q true true = walkOf c x := by
  simp only [pageWalkFrom, hpages, hentry]
  cases x with
  | none => simp [entryOf, walkOf]
  | some mp =>
      have hflags := fun {flag} (hlt : flag < 4096) => pte_flags (haligned mp rfl) hlt mp.prot
      have hp : pte mp.pa mp.prot &&& pteP ≠ 0 := by
        rw [hflags (by decide)]
        split <;> decide
      have hu : pte mp.pa mp.prot &&& pteU ≠ 0 := by
        rw [hflags (by decide)]
        split <;> decide
      have hw : pte mp.pa mp.prot &&& pteW ≠ 0 ↔ mp.prot &&& mmapWrite ≠ 0 := by
        rw [hflags (by decide)]
        split
        next h => exact iff_of_true (by decide) h
        next h => exact iff_of_false (by decide) h
      simp only [entryOf, if_neg hp, true_or, if_true, walkOf, leafOf, hshift,
        frame_aligned, frame_pte, Bool.true_and, Walk.present.injEq, Leaf.mk.injEq, true_and]
      exact ⟨decide_eq_decide.2 hw, decide_eq_true hu⟩

/-- Where a table is missing on the path of `va`, nothing is mapped there. -/
theorem Refines.unmapped (ref : Refines c σ₀ m tables σ) (hf : m as = some f)
    (hva : inRange va (uvmArea c)) (haligned : va % 4096 = 0) {π rest : List Nat} {i : Nat}
    {b : Base} {t : Nat → Nat} (hrest : path c va = (π ++ [i]) ++ rest)
    (hq : descend (next (userUse c)) σ.heap (.space as) π = some b) (ht : σ.heap b = some t)
    (hzero : t i = 0) : f va = none := by
  have hleaf := (ref.holds hf).leaves hva haligned
  have hnone : Heap.descend (next (userUse c)) σ.heap (.space as) (path c va) = none := by
    rw [hrest, descend_append, descend_snoc, hq]
    simp [ht, hzero]
  rw [lookup, hnone] at hleaf
  cases hfva : f va with
  | none => rfl
  | some mp =>
      rw [hfva] at hleaf
      exact absurd hleaf.symm (pte_ne_zero _ _)

/-- From the table on the path `π` the walk ends at the entry of `va`. -/
theorem Refines.pageWalkFrom_user (ref : Refines c σ₀ m tables σ) (hf : m as = some f)
    (hva : inRange va (uvmArea c)) (haligned : va % 4096 = 0) (infos : List PtInfo)
    {π : List Nat} {q : Nat} (hπ : π ≠ []) (hinfos : π ++ infos.map (indexof va) = indices c va)
    (hne : infos ≠ []) (hlast : ∀ info ∈ infos.getLast?, info.shift = 12)
    (hq : descend (next (userUse c)) σ.heap (.space as) π = some (.page q)) :
    pageWalkFrom c σ va infos q true true = walkOf c (f va) := by
  induction infos generalizing π q with
  | nil => exact absurd rfl hne
  | cons info infos ih =>
      have hlen := congrArg List.length hinfos
      rw [indices_length, List.length_append, List.length_map, List.length_cons] at hlen
      rcases ref.rooted.ranked.alloc (Roots.intro (.intro hf)) (by omega) hq with ⟨t, ht⟩
      have hpages : σ.pages q = some t := ht
      cases infos with
      | nil =>
          -- the last table: its entry is that of the map
          have hplace := (indices_eq c va).symm.trans hinfos.symm
          have hpath : path c va = π := List.append_inj_left' hplace rfl
          have hindex : leafIndex c va = indexof va info :=
            (List.cons.inj (List.append_inj_right' hplace rfl)).1
          have hentry : t (indexof va info) = entryOf (f va) := by
            rw [← (ref.holds hf).leaves hva haligned, lookup, hpath, hq, hindex]
            simp [ht]
          exact pageWalkFrom_leaf hpages hentry (fun _ hfva => (ref.holds hf).aligned hfva)
            (hlast info (by simp))
      | cons inner rest =>
          have hone : π.length = 1 → ¬(userUse c).shared (indexof va info) := by
            intro hone
            have htop := indices_top c va
            rw [← hinfos, List.getElem?_append_right (by omega), hone] at htop
            rw [show indexof va info = topIndex c va by simpa using htop]
            exact (userUse c).unshared hva
          have hrest : (π ++ [indexof va info]) ++ (inner :: rest).map (indexof va) =
              indices c va := by
            rw [← hinfos]
            simp
          rcases (ref.rooted.shaped (.intro hf)).inner (by simp at hlen; omega) hq ht hone with
            hzero | ⟨q', hq'⟩
          · have hsplit : path c va = (π ++ [indexof va info]) ++
                ((inner :: rest).map (indexof va)).dropLast := by
              rw [path, ← hrest, List.dropLast_append_of_ne_nil (by simp)]
            have hfva := ref.unmapped hf hva haligned hsplit hq ht hzero
            simp [pageWalkFrom, hpages, hzero, hfva, walkOf]
          · rcases hq'.flags hπ with ⟨hw, hu, hps⟩
            have hnext : Heap.descend (next (userUse c)) σ.heap (.space as)
                (π ++ [indexof va info]) = some (.page q') := by
              rw [descend_snoc, hq, Option.bind_some, ht, Option.bind_some, hq'.next]
            have hih := ih (π := π ++ [indexof va info]) (by simp) hrest (by simp)
              (by simpa using hlast) hnext
            rw [pageWalkFrom, hpages]
            simp only [if_neg hq'.present, hq'.frame, decide_eq_true hw, decide_eq_true hu,
              Bool.true_and]
            rw [if_neg (by simp [hps]), hih]

/-! ## All walks -/

theorem indexof_page {info : PtInfo} (hinfo : info ∈ (mmu c).pgtables) (va : Nat) :
    indexof (va - va % 4096) info = indexof va info := by
  rw [indexof_eq hinfo, indexof_eq hinfo]
  cases c with
  | x86_64 =>
      simp only [mmu, List.mem_cons, List.not_mem_nil, or_false] at hinfo
      rcases hinfo with rfl | rfl | rfl | rfl | rfl <;> dsimp only <;> omega
  | i386 =>
      simp only [mmu, List.mem_cons, List.not_mem_nil, or_false] at hinfo
      rcases hinfo with rfl | rfl | rfl <;> dsimp only <;> omega

theorem pageWalkFrom_page (infos : List PtInfo) (hinfos : ∀ info ∈ infos, info ∈ (mmu c).pgtables)
    (va base : Nat) (w u : Bool) : pageWalkFrom c σ (va - va % 4096) infos base w u =
      pageWalkFrom c σ va infos base w u := by
  induction infos generalizing base w u with
  | nil => rfl
  | cons info rest ih =>
      have hrest := ih fun i hi => hinfos i (List.mem_cons_of_mem _ hi)
      simp only [pageWalkFrom, indexof_page (hinfos info (by simp)), hrest]

theorem Refines.spaceWalk_user (ref : Refines c σ₀ m tables σ) (hf : m as = some f)
    (hva : inRange va (uvmArea c)) :
    spaceWalk c σ as va = walkOf c (f (va - va % 4096)) := by
  have hpage : inRange (va - va % 4096) (uvmArea c) := by
    have hstart : (uvmArea c).start % 4096 = 0 := by cases c <;> decide
    have hlow := hva.1
    have hhigh := hva.2
    constructor <;> omega
  rcases ref.spaceWalk_eq hf with ⟨q, t, hq, _, _, hwalk⟩
  rcases walkLevels c with ⟨rest, hlevels, _, _, hindices⟩
  have htail : ∀ info ∈ (mmu c).pgtables.tail, info ∈ (mmu c).pgtables :=
    fun info hinfo => List.mem_of_mem_tail hinfo
  rw [hwalk, ← pageWalkFrom_page _ htail]
  apply ref.pageWalkFrom_user hf hpage (by omega) _ (π := [0]) (by simp) _ _ _ hq
  · rw [hlevels, hindices]
  · rw [hlevels]
    simp
  · cases c <;> simp [mmu]

theorem Refines.spaceWalk_elsewhere (ref : Refines c σ₀ m tables σ) (hf : m as = some f)
    (huser : ¬UserTop c (topIndex c va)) (hkernel : ¬KernelTop c (topIndex c va)) :
    spaceWalk c σ as va = .absent := by
  rcases ref.spaceWalk_eq hf with ⟨q, t, hq, ht, _, hwalk⟩
  rcases walkLevels c with ⟨rest, hlevels, _, _, _⟩
  have hlive := Spaces.Live.intro hf
  have hlen : [0].length < (mmu c).ptlevels := by cases c <;> decide
  rcases (ref.rooted.shaped hlive).inner hlen hq (b := .page q) ht fun _ => hkernel with
    hzero | ⟨q', hq'⟩
  · rw [topIndex] at hzero
    rw [hwalk, hlevels, pageWalkFrom, ht]
    simp [hzero]
  · -- a table on this path would belong to an address of the user area
    have hdesc : Heap.descend (next (userUse c)) σ.heap (.space as) ([0] ++ [topIndex c va]) =
        some (.page q') := by
      rw [descend_snoc, hq, Option.bind_some]
      have hheap : σ.heap (.page q) = some t := ht
      rw [hheap, Option.bind_some, hq'.next]
    rcases (ref.rooted.shaped hlive).walked (by cases c <;> simp [mmu]) hdesc with
      ⟨va', hva', hpath⟩
    have htop : (([0] ++ [topIndex c va])[1]? : Option Nat) = some (topIndex c va') := by
      rw [hpath, List.getElem?_take_of_lt (by simp), indices_top]
    have hsame : topIndex c va = topIndex c va' := by simpa using htop
    exact absurd (hsame ▸ userTop_of_inRange hva') huser

/-- The walks that a map gives rise to, beside the kernel's. -/
def specWalk (c : Arch) (σ₀ : State) (f : Nat → Option Mapping) (va : Nat) : Walk :=
  if inRange va (uvmArea c) then walkOf c (f (va - va % 4096))
  else if KernelTop c (topIndex c va) then pageWalk c σ₀ σ₀.kpt va
  else .absent

/-- A walk from the `ptr` of an address space depends on its map only. -/
theorem Refines.spaceWalk_spec (hboot : Booted c σ₀) (ref : Refines c σ₀ m tables σ)
    (hf : m as = some f) (hva : va < 2 ^ c.linear) : spaceWalk c σ as va = specWalk c σ₀ f va := by
  unfold specWalk
  split
  next huser => exact ref.spaceWalk_user hf huser
  next huser =>
    split
    next hkernel => rw [ref.spaceWalk_kernel hboot hf hkernel, ref.kernelWalk hboot]
    next hkernel =>
      exact ref.spaceWalk_elsewhere hf (fun h => huser ((userTop_iff hva).1 h)) hkernel

end OSLabs.Vme
