import OSLabs.Vme.Protect

/-! # Mapping and unmapping a page

`map` grows the tables to the entry of the page, writes this one entry, and walks to it
again. The first and the last part change no mapping, the middle changes one.
-/

namespace OSLabs.Vme

open OSLabs.Lib
open OSLabs.Lib.Heap

variable {c : Arch} {σ₀ σ σ' : State} {m : Spaces} {tables : Nat → List Nat}
  {as va pa prot : Nat} {ps : List Nat} {f : Nat → Option Mapping}

/-! ## Growing -/

section Grow

variable (ref : Refines c σ₀ m tables σ) (hlive : m.Live as)
  (g : Grown (userUse c) m.Live as σ σ' ps)

include g

theorem Grown.owns_iff {as' p : Nat} (hlive' : m.Live as') :
    Owns c σ' as' p ↔ Owns c σ as' p ∨ as' = as ∧ p ∈ ps := by
  constructor
  · intro h
    rcases h with ⟨π, hne, hlen, hdesc⟩
    rcases g.new hlive' hlen hdesc with hold | ⟨has, q, hq, heq⟩
    · exact Or.inl ⟨π, hne, hlen, hold⟩
    · exact Or.inr ⟨has, Base.page.inj heq ▸ hq⟩
  · intro h
    rcases h with ⟨π, hne, hlen, hdesc⟩ | ⟨has, hp⟩
    · exact ⟨π, hne, hlen, g.old hlive' hlen hdesc⟩
    · rcases (g.obtained p hp).2 with ⟨π, hne, hlen, hdesc⟩
      exact ⟨π, hne, hlen, has ▸ hdesc⟩

include ref

theorem Refines.grown_apart {p : Nat} (hp : p ∈ ps) : σ₀.pages p = none := by
  cases hpages : σ₀.pages p with
  | none => rfl
  | some t => exact absurd ((g.obtained p hp).1.symm.trans (ref.kernel hpages)) (by simp)

include hlive

/-- Growing changes no mapping, and adds the pages obtained to the tables. -/
theorem Refines.grown :
    Refines c σ₀ m (Function.update tables as (tables as ++ ps)) σ' where
  rooted := g.rooted
  kpt := g.kpt.trans ref.kpt
  kernel := by
    intro p t ht
    apply g.frame (b := .page p) (ref.kernel ht)
    intro h
    rcases h with ⟨π, hlen, hdesc⟩
    have hne : π ≠ [] := by
      intro h
      rw [h] at hdesc
      cases hdesc
    rcases Option.isSome_iff_exists.1 hlive with ⟨f, hf⟩
    have happart := (ref.holds hf).apart ⟨π, hne, Nat.le_of_lt hlen, hdesc⟩
    exact absurd (happart.symm.trans ht) (by simp)
  holds := by
    intro as' f hf
    have hlive' := Spaces.Live.intro hf
    have hh := ref.holds hf
    constructor
    · intro p h
      rcases (g.owns_iff hlive').1 h with h | ⟨_, hp⟩
      · exact hh.apart h
      · exact ref.grown_apart g hp
    · rcases hh.top with ⟨q, t, hq, ht, htop⟩
      have hlevels : [0].length < (mmu c).ptlevels := by cases c <;> decide
      have hq' := g.old hlive' (Nat.le_of_lt hlevels) hq
      rcases g.keep (b := .page q) ht with ⟨t', ht'⟩
      refine ⟨q, t', hq', ht', ?_⟩
      intro kt i hkt hi
      rcases g.shared hlive' rfl hlevels hq (b := .page q) ht hi with ⟨t'', ht'', heq⟩
      rw [← htop hkt hi, ← heq, Option.some.inj (ht'.symm.trans ht'')]
    · intro va hva haligned
      rw [g.leaves hlive' (path_length c va)]
      exact hh.leaves hva haligned
    · exact hh.aligned
    · by_cases has : as' = as
      · rw [has, Function.update_self, List.nodup_append]
        rw [has] at hh
        refine ⟨hh.nodup, g.nodup, ?_⟩
        intro p hp q hq heq
        rcases ref.allocated hlive (hh.owns.1 hp) with ⟨t, ht⟩
        have hfresh := (g.obtained q hq).1
        rw [← heq, ht] at hfresh
        cases hfresh
      · rw [Function.update_of_ne has]
        exact hh.nodup
    · intro p
      rw [g.owns_iff hlive', ← hh.owns]
      by_cases has : as' = as
      · rw [has, Function.update_self, List.mem_append]
        simp
      · rw [Function.update_of_ne has]
        simp [has]

end Grow

/-! ## Writing an entry -/

theorem Spaces.map_live (m : Spaces) (as va pa prot : Nat) :
    (m.map as va pa prot).Live = m.Live := by
  funext as'
  by_cases has : as' = as
  · simp [Spaces.Live, Spaces.map, has]
  · simp [Spaces.Live, Spaces.map, has]

/-- Pages are told apart by the place of their entry. -/
theorem place_inj {va va' : Nat} (hva : inRange va (uvmArea c)) (hva' : inRange va' (uvmArea c))
    (haligned : va % 4096 = 0) (haligned' : va' % 4096 = 0) (hpath : path c va' = path c va)
    (hindex : leafIndex c va' = leafIndex c va) : va' = va := by
  have h := indices_inj (lt_linear_of_inRange hva') (lt_linear_of_inRange hva)
    (by rw [indices_eq, indices_eq, hpath, hindex])
  omega

section Put

variable {b : Base} {w : Nat} (ref : Refines c σ₀ m tables σ) (hf : m as = some f)
  (hb : descend (next (userUse c)) σ.heap (.space as) (path c va) = some b)
  (hheap : σ'.heap = put σ.heap b (leafIndex c va) w)

include ref hf hb hheap

theorem Refines.put_agree {as' : Nat} {π : List Nat} {a : Base} (hlive : m.Live as')
    (hlen : π.length < (mmu c).ptlevels)
    (ha : descend (next (userUse c)) σ.heap (.space as') π = some a) : σ'.heap a = σ.heap a := by
  rw [hheap]
  exact put_leaf_agree ref.rooted.ranked (Roots.intro (.intro hf)) (path_length c va) hb
    (Roots.intro hlive) hlen ha

theorem Refines.put_descend {as' : Nat} {π : List Nat} (hlive : m.Live as')
    (hlen : π.length ≤ (mmu c).ptlevels) :
    descend (next (userUse c)) σ'.heap (.space as') π =
      descend (next (userUse c)) σ.heap (.space as') π := by
  rw [hheap]
  exact descend_put_leaf ref.rooted.ranked (Roots.intro (.intro hf)) (path_length c va) hb
    (Roots.intro hlive) hlen

theorem Refines.put_owns {as' p : Nat} (hlive : m.Live as') :
    Owns c σ' as' p ↔ Owns c σ as' p := by
  constructor
  · intro h
    rcases h with ⟨π, hne, hlen, ha⟩
    exact ⟨π, hne, hlen, (ref.put_descend hf hb hheap hlive hlen).symm.trans ha⟩
  · intro h
    rcases h with ⟨π, hne, hlen, ha⟩
    exact ⟨π, hne, hlen, (ref.put_descend hf hb hheap hlive hlen).trans ha⟩

theorem Refines.put_lookup {as' va' : Nat} (hlive : m.Live as') (hva : inRange va (uvmArea c))
    (hva' : inRange va' (uvmArea c)) (haligned : va % 4096 = 0) (haligned' : va' % 4096 = 0) :
    lookup (next (userUse c)) σ'.heap (.space as') (path c va') (leafIndex c va') =
      if as' = as ∧ va' = va then some w
      else lookup (next (userUse c)) σ.heap (.space as') (path c va') (leafIndex c va') := by
  rw [hheap, lookup_put_leaf ref.rooted.ranked (Roots.intro (.intro hf)) (path_length c va) hb
    (Roots.intro hlive) (path_length c va')]
  by_cases hsame : as' = as ∧ va' = va
  · rw [if_pos hsame, if_pos ⟨by rw [hsame.1], by rw [hsame.2], by rw [hsame.2]⟩]
  · rw [if_neg hsame, if_neg]
    intro h
    exact hsame ⟨Base.space.inj h.1, place_inj hva hva' haligned haligned' h.2.1 h.2.2⟩

theorem Refines.put_kernel {p : Nat} {t : Nat → Nat} (ht : σ₀.pages p = some t) :
    σ'.pages p = some t := by
  have hne : Base.page p ≠ b := by
    intro h
    have hpath : path c va ≠ [] := by
      intro hnil
      rw [hnil] at hb
      rw [← h] at hb
      cases hb
    have happart := (ref.holds hf).apart ⟨path c va, hpath, Nat.le_of_eq (path_length c va),
      h ▸ hb⟩
    exact absurd (happart.symm.trans ht) (by simp)
  have hold : σ'.heap (.page p) = σ.heap (.page p) := by rw [hheap, put_of_ne hne]
  exact hold.trans (ref.kernel ht)

theorem Refines.put_holds {as' : Nat} {f₁ f' : Nat → Option Mapping} (hf₁ : m as' = some f₁)
    (hva : inRange va (uvmArea c)) (haligned : va % 4096 = 0)
    (hentry : as' = as → w = entryOf (f' va))
    (hpage : ∀ {mp}, as' = as → f' va = some mp → mp.pa % 4096 = 0)
    (hother : ∀ {va'}, ¬(as' = as ∧ va' = va) → f' va' = f₁ va') :
    Holds c σ₀ σ' as' f' (tables as') := by
  have hlive := Spaces.Live.intro hf₁
  have hh := ref.holds hf₁
  constructor
  · intro p h
    exact hh.apart ((ref.put_owns hf hb hheap hlive).1 h)
  · rcases hh.top with ⟨q, t, hq, ht, htop⟩
    have hlevels : [0].length < (mmu c).ptlevels := by cases c <;> decide
    have hkeep := ref.put_agree hf hb hheap hlive hlevels hq
    have hdesc := ref.put_descend hf hb hheap hlive (Nat.le_of_lt hlevels)
    exact ⟨q, t, hdesc.trans hq, hkeep.trans ht, htop⟩
  · intro va' hva' haligned'
    rw [ref.put_lookup hf hb hheap hlive hva hva' haligned haligned']
    by_cases hsame : as' = as ∧ va' = va
    · rw [if_pos hsame, Option.getD_some, hsame.2, hentry hsame.1]
    · rw [if_neg hsame, hother hsame]
      exact hh.leaves hva' haligned'
  · intro va' mp hmp
    by_cases hsame : as' = as ∧ va' = va
    · rw [hsame.2] at hmp
      exact hpage hsame.1 hmp
    · rw [hother hsame] at hmp
      exact hh.aligned hmp
  · exact hh.nodup
  · intro p
    exact hh.owns.trans (ref.put_owns hf hb hheap hlive).symm

theorem Refines.put (hkpt : σ'.kpt = σ.kpt) (hva : inRange va (uvmArea c))
    (haligned : va % 4096 = 0) (hpa : pa % 4096 = 0)
    (hw : w = entryOf (if prot = mmapNone then none else some ⟨pa, prot⟩)) :
    Refines c σ₀ (m.map as va pa prot) tables σ' where
  rooted := by
    rw [Spaces.map_live, hheap]
    exact ref.rooted.put_leaf (.intro hf) (path_length c va) hb
  kpt := hkpt.trans ref.kpt
  kernel := ref.put_kernel hf hb hheap
  holds := by
    intro as' f' hf'
    by_cases has : as' = as
    · subst has
      rw [Spaces.map, Function.update_self, hf, Option.map_some] at hf'
      have hf'' := Option.some.inj hf'
      subst hf''
      apply ref.put_holds hf hb hheap hf hva haligned
      · intro _
        rw [Function.update_self, hw]
      · intro mp _ hmp
        rw [Function.update_self] at hmp
        split at hmp
        · cases hmp
        · rw [← Option.some.inj hmp]
          exact hpa
      · intro va' hne
        exact Function.update_of_ne (fun h => hne ⟨rfl, h⟩) _ _
    · rw [Spaces.map, Function.update_of_ne has] at hf'
      exact ref.put_holds hf hb hheap hf' hva haligned (fun h => absurd h has)
        (fun h => absurd h has) (fun _ => rfl)

end Put

/-! ## The call -/

def newEntry (e pa prot : Nat) : Except Halt Nat :=
  if prot = mmapNone then
    if e &&& pteP = 0 then .error (.panic "unmapping a non-mapped page") else .ok 0
  else if e &&& pteP ≠ 0 then .error (.panic "remapping a mapped page")
  else .ok (pte pa prot)

theorem newEntry_eq {e w : Nat} (h : newEntry e pa prot = .ok w) :
    w = entryOf (if prot = mmapNone then none else some ⟨pa, prot⟩) := by
  by_cases hp : prot = mmapNone
  · by_cases he : e &&& pteP = 0
    · simp [newEntry, hp, he] at h
    · simp only [newEntry, hp, if_true, he, if_false, Except.ok.injEq] at h
      simp [hp, entryOf, h]
  · by_cases he : e &&& pteP = 0
    · simp only [newEntry, hp, if_false, he, ne_eq, not_true_eq_false, Except.ok.injEq] at h
      simp [hp, entryOf, h]
    · simp [newEntry, hp, he] at h

theorem newEntry_error {e : Nat} {h : Halt} (herr : newEntry e pa prot = .error h) :
    ∃ text, h = .panic text := by
  unfold newEntry at herr
  split at herr
  · split at herr
    · exact ⟨_, (Except.error.inj herr).symm⟩
    · cases herr
  · split at herr
    · exact ⟨_, (Except.error.inj herr).symm⟩
    · cases herr

/-- `map` after its checks of the addresses. -/
theorem map_eq (pgalloc : Pgalloc c) (hva : inRange va (uvmArea c))
    (haligned : va = rounddown c va (mmu c).pgsize) (hpa : pa = rounddown c pa (mmu c).pgsize)
    (σ : State) : map c pgalloc as va pa prot σ =
      ptwalk c pgalloc as va (userUse c).flags σ >>= fun r =>
        load r.2 r.1.1 r.1.2 >>= fun e =>
          newEntry e pa prot >>= fun w =>
            store r.2 r.1.1 r.1.2 w >>= fun σ =>
              ptwalk c pgalloc as va (userUse c).flags σ >>= fun r => .ok r.2 := by
  have hflags : (userUse c).flags = pteW ||| pteU := rfl
  rw [map, if_neg (not_not_intro hva), if_neg (by simp only [← haligned, ← hpa]; simp), hflags]
  simp only [bind, Except.bind]
  cases ptwalk c pgalloc as va (pteW ||| pteU) σ with
  | error h => rfl
  | ok r =>
      dsimp only
      cases load r.2 r.1.1 r.1.2 with
      | error h => rfl
      | ok e =>
          by_cases hp : prot = mmapNone
          · by_cases he : e &&& pteP = 0
            · simp [newEntry, hp, he]
            · simp only [newEntry, hp, if_true, he, if_false]
          · by_cases he : e &&& pteP = 0
            · simp only [newEntry, hp, if_false, he, ne_eq, not_true_eq_false]
              rfl
            · simp [newEntry, hp, he]

/-- `map` on a protected address space fails with a panic only. Else it maps or unmaps the
page, and the pages it obtained are tables of this address space. -/
theorem map_spec (ref : Refines c σ₀ m tables σ) (pgalloc : Pgalloc c) (hlive : m.Live as)
    (va pa prot : Nat) :
    (∃ text, map c pgalloc as va pa prot σ = .error (.panic text)) ∨
      ∃ σ' ps, map c pgalloc as va pa prot σ = .ok σ' ∧
        σ'.calls = σ.calls ++ ps.map .pgalloc ∧
        inRange va (uvmArea c) ∧ va % 4096 = 0 ∧ pa % 4096 = 0 ∧
        Refines c σ₀ (m.map as va pa prot) (Function.update tables as (tables as ++ ps)) σ' := by
  by_cases hva : inRange va (uvmArea c)
  · by_cases hround : va ≠ rounddown c va (mmu c).pgsize ∨ pa ≠ rounddown c pa (mmu c).pgsize
    · exact Or.inl ⟨_, by rw [map, if_neg (not_not_intro hva), if_pos hround]⟩
    · rw [not_or, not_not, not_not] at hround
      have haligned : va % 4096 = 0 := aligned_of_rounddown (pgsize_eq c ▸ hround.1)
      have hpa : pa % 4096 = 0 := aligned_of_rounddown (pgsize_eq c ▸ hround.2)
      rw [map_eq pgalloc hva hround.1 hround.2]
      rcases ptwalk_spec pgalloc as va ref.rooted hlive hva with ⟨text, herr⟩ | ⟨loc, σ₁, ps, hok, hw₁⟩
      · exact Or.inl ⟨text, by rw [herr]; rfl⟩
      · have ref₁ := ref.grown hlive hw₁.grown
        rcases Option.isSome_iff_exists.1 hlive with ⟨f, hf⟩
        rcases ref₁.rooted.ranked.alloc (Roots.intro hlive) (Nat.le_of_eq (path_length c va))
          hw₁.table with ⟨t, ht⟩
        rw [hok]
        simp only [bind, Except.bind, load_eq ht]
        cases hnew : newEntry (t loc.2) pa prot with
        | error h =>
            rcases newEntry_error hnew with ⟨text, rfl⟩
            exact Or.inl ⟨text, rfl⟩
        | ok w =>
            have hroot : ∀ as', loc.1 = .space as' → loc.2 = 0 := by
              intro as' has'
              have htable := hw₁.table
              rw [has'] at htable
              have hlen := path_length c va
              rw [(descend_space htable).1] at hlen
              cases c <;> cases hlen
            rcases store_spec ht hroot w with ⟨σ₂, hstore, hheap, hkpt, hcalls, _⟩
            rw [hw₁.index] at hheap
            have ref₂ := ref₁.put hf hw₁.table hheap hkpt hva haligned hpa (newEntry_eq hnew)
            have hlive₂ : (m.map as va pa prot).Live as := by
              rw [Spaces.map_live]
              exact hlive
            simp only [hstore]
            rcases ptwalk_spec pgalloc as va ref₂.rooted hlive₂ hva with
              ⟨text, herr⟩ | ⟨loc', σ₃, qs, hok₃, hw₃⟩
            · exact Or.inl ⟨text, by rw [herr]⟩
            · have ref₃ := ref₂.grown hlive₂ hw₃.grown
              rw [Function.update_self, Function.update_idem, List.append_assoc] at ref₃
              refine Or.inr ⟨σ₃, ps ++ qs, by rw [hok₃], ?_, hva, haligned, hpa, ref₃⟩
              rw [hw₃.grown.calls, hcalls, hw₁.grown.calls, List.map_append, List.append_assoc]
  · exact Or.inl ⟨_, by rw [map, if_pos hva]⟩

end OSLabs.Vme
