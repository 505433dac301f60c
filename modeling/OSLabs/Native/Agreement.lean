import OSLabs.Lib.Run
import OSLabs.Native.Links

/-! # Address spaces against the log

In every reachable state memory agrees with the log: a page of an address space is found
in its hash table and, if its list ends, on its list, its node has the latest mapping, and
the host has the mappings of the current address space. The list ends exactly as long as no
page is mapped again.
-/

namespace OSLabs.Native

open OSLabs.Lib

def hostOf (log : List Event) (head : Option Nat) (va : Nat) : Option HostPage :=
  head.bind fun h => (latest log h va).map Mapping.hostPage

structure Agrees (log : List Event) (m : Machine) : Prop where
  linked : Linked m
  enabled : m.vmeEnable = true
  user : ∀ {h va}, va ∈ pagesOf log h → inRange va userSpace
  entry : ∀ {h va p}, inRange va userSpace → nodeOf m h va = some p →
    ∃ e, m.nodes p = some e ∧ latest log h va = some e.mapping ∧
      e.isMapped = decide (m.vmHead = some h)
  absent : ∀ {h va}, inRange va userSpace → nodeOf m h va = none → latest log h va = none
  complete : ∀ {h p l}, Chain (nextOf m.nodes) (headOf m h) l → Owns m h p → p ∈ l
  finite : ∀ h, (∃ l, Chain (nextOf m.nodes) (headOf m h) l) ↔ (pagesOf log h).Nodup
  host : m.host = hostOf log m.vmHead

variable {pgsize : Nat} {pgalloc : Pgalloc} {log es : List Event} {m m' : Machine}
  {h va p fuel : Nat} {head : Option Nat} {l l' : List Nat} {mp : Mapping}

theorem start_agrees : Agrees [] start where
  linked :=
    { headPage := by simp [start]
      nodePage := by simp [start]
      space := by simp [start]
      current := by simp [start]
      node := by simp [start, nodeOf]
      apart := by simp [start, Owns, nodeOf]
      head := by simp [start, headOf]
      next := by simp [start, nextOf] }
  enabled := rfl
  user := by simp [pagesOf]
  entry := by simp [start, nodeOf]
  absent := by simp [latest]
  complete := by simp [start, Owns, nodeOf]
  finite := by
    intro h
    have hl : Chain (nextOf start.nodes) (headOf start h) [] := Chain.nil
    simp only [pagesOf, List.filterMap_nil, List.nodup_nil, iff_true]
    exact ⟨[], hl⟩
  host := rfl

namespace Agrees

theorem mem_pagesOf_iff (inv : Agrees log m) (hva : inRange va userSpace) :
    va ∈ pagesOf log h ↔ ∃ p, nodeOf m h va = some p := by
  rw [mem_pagesOf]
  cases hp : nodeOf m h va with
  | none => simp [inv.absent hva hp]
  | some p =>
      rcases inv.entry hva hp with ⟨e, -, hlatest, -⟩
      simp [hlatest]

theorem node_of_latest (inv : Agrees log m) (hmp : latest log h va = some mp) :
    ∃ p e, nodeOf m h va = some p ∧ m.nodes p = some e ∧ e.va = va ∧ e.mapping = mp ∧
      e.isMapped = decide (m.vmHead = some h) := by
  have hmem : va ∈ pagesOf log h := by
    rw [mem_pagesOf, hmp]
    rfl
  have hva := inv.user hmem
  rcases (inv.mem_pagesOf_iff hva).1 hmem with ⟨p, hp⟩
  rcases inv.entry hva hp with ⟨e, he, hlatest, hflag⟩
  rcases inv.linked.node hva hp with ⟨e', he', hva'⟩
  rw [he] at he'
  cases he'
  rw [hmp] at hlatest
  exact ⟨p, e, hp, he, hva', (Option.some.inj hlatest).symm, hflag⟩

theorem node_of_hostOf (inv : Agrees log m) {page : HostPage}
    (hva : hostOf log head va = some page) :
    ∃ h p e, head = some h ∧ Owns m h p ∧ m.nodes p = some e ∧ e.va = va ∧
      pmemPage e.pa e.prot = page ∧ e.isMapped = decide (m.vmHead = some h) := by
  rw [hostOf, Option.bind_eq_some_iff] at hva
  rcases hva with ⟨h, hh, hpage⟩
  rcases Option.map_eq_some_iff.1 hpage with ⟨mp, hmp, hpage⟩
  rcases inv.node_of_latest hmp with ⟨p, e, hp, he, hva, hmapping, hflag⟩
  have huser := inv.user (mem_pagesOf.2 (by rw [hmp]; rfl))
  exact ⟨h, p, e, hh, ⟨va, huser, hp⟩, he, hva, by rw [← hpage, ← hmapping]; rfl, hflag⟩

/-! ## `protect` -/

/-- A head without pages is to lists and hash tables as no head at all. -/
theorem protect_sameLists (as : Nat) (ps : List Nat) (a : AddrSpace) (hnone : m.heads h = none) :
    SameLists m
      { m with
        allocated := ps
        heads := Function.update m.heads h (some ⟨none, fun _ => none, 0⟩)
        spaces := Function.update m.spaces as (some a) } where
  hash := by
    funext h' va
    by_cases hh : h' = h
    · simp [nodeOf, hh, hnone]
    · simp [nodeOf, hh]
  head := by
    funext h'
    by_cases hh : h' = h
    · simp [headOf, hh, hnone]
    · simp [headOf, hh]
  next := rfl
  vas _ := rfl

theorem afterProtect (inv : Agrees log m) {as : Nat}
    (hok : OSLabs.Native.protect pgsize pgalloc as m = .ok m') :
    Agrees log m' ∧ ∃ a, m'.spaces as = some a := by
  unfold OSLabs.Native.protect at hok
  split at hok
  next => cases hok
  next h hnew =>
    have hfresh := pgalloc.fresh hnew
    have hnone : m.heads h = none := by
      cases hh : m.heads h with
      | none => rfl
      | some H => exact absurd (inv.linked.headPage (by rw [hh]; rfl)) hfresh
    cases hok
    refine ⟨?_, _, Function.update_self ..⟩
    have same := protect_sameLists as (m.allocated ++ [h]) ⟨pgsize, userSpace, h⟩ hnone
    have hborn : ∀ {h'}, (m.heads h').isSome →
        (Function.update m.heads h (some ⟨none, fun _ => none, 0⟩) h').isSome := by
      intro h' hh'
      by_cases hh : h' = h
      · rw [hh, Function.update_self]
        rfl
      · rwa [Function.update_of_ne hh]
    exact
      { linked := by
          apply same.linked inv.linked
          · intro h' hh'
            by_cases hh : h' = h
            · rw [hh]
              exact List.mem_append_right _ List.mem_cons_self
            · simp only [Function.update_of_ne hh] at hh'
              exact List.mem_append_left _ (inv.linked.headPage hh')
          · exact fun hp => List.mem_append_left _ hp
          · intro as' a ha
            by_cases hss : as' = as
            · simp only [hss, Function.update_self, Option.some.injEq] at ha
              simp [← ha]
            · simp only [Function.update_of_ne hss] at ha
              exact hborn (inv.linked.space ha)
          · exact fun hcur => hborn (inv.linked.current hcur)
        enabled := inv.enabled
        user := inv.user
        entry := by
          intro h' va p hva hp
          rw [same.hash] at hp
          exact inv.entry hva hp
        absent := by
          intro h' va hva hp
          rw [same.hash] at hp
          exact inv.absent hva hp
        complete := by
          intro h' p l hl hp
          rw [same.next, same.head] at hl
          exact inv.complete hl (same.owns_iff.1 hp)
        finite := by
          intro h'
          rw [same.next, same.head]
          exact inv.finite h'
        host := inv.host }

/-! ## `map` -/

/-- The list of `h` ends after `map` if it ended before and the page is new there. -/
theorem mapped_finite (inv : Agrees log m) (hm : Mapped h va mp p m m') :
    (∃ l, Chain (nextOf m'.nodes) (headOf m' h) l) ↔
      (pagesOf (log ++ [.map h va mp]) h).Nodup := by
  rw [pagesOf_map_self, List.nodup_append_comm, List.singleton_append, List.nodup_cons,
    ← inv.finite, inv.mem_pagesOf_iff hm.user]
  constructor
  · intro hnew
    rcases hnew with ⟨l, hl⟩
    rcases hm.chain_self.1 hl with ⟨k, rfl, hp, hk⟩
    refine ⟨?_, k, hk⟩
    intro hold
    rcases hold with ⟨q, hq⟩
    rcases hm.found with ⟨hfound, -⟩ | ⟨hnone, -⟩
    · exact hp (inv.complete hk ⟨va, hm.user, hfound⟩)
    · rw [hnone] at hq
      cases hq
  · intro hold
    rcases hold with ⟨hnot, l, hl⟩
    rcases hm.found with ⟨hfound, -⟩ | ⟨-, hfresh, -⟩
    · exact absurd ⟨p, hfound⟩ hnot
    · have hp : p ∉ l := by
        intro hp
        rcases inv.linked.owned (inv.linked.owns_of_mem hl hp) with ⟨e, he, -⟩
        exact hfresh (inv.linked.nodePage (by rw [he]; rfl))
      exact ⟨p :: l, hm.chain_self.2 ⟨l, rfl, hp, hl⟩⟩

/-- What the host maps changes only if the page is of the current address space. -/
theorem hostOf_map : hostOf (log ++ [.map h va mp]) head =
    if head = some h then Function.update (hostOf log head) va (some mp.hostPage)
    else hostOf log head := by
  funext va'
  cases head with
  | none => rfl
  | some h' =>
      by_cases hh : h' = h
      · subst hh
        rw [if_pos rfl]
        by_cases hva : va' = va
        · rw [hva, Function.update_self, hostOf, Option.bind_some, latest_map_self]
          rfl
        · rw [Function.update_of_ne hva, hostOf, hostOf, Option.bind_some, Option.bind_some,
            latest_map_of_ne fun hboth => hva hboth.2]
      · rw [if_neg fun heq => hh (Option.some.inj heq), hostOf, hostOf, Option.bind_some,
          Option.bind_some, latest_map_of_ne fun hboth => hh hboth.1]

theorem afterMapped (inv : Agrees log m) (hm : Mapped h va mp p m m') :
    Agrees (log ++ [.map h va mp]) m' where
  linked := hm.linked inv.linked
  enabled := by rw [hm.vmeEnable, inv.enabled]
  user := by
    intro h' va' hmem
    by_cases hh : h' = h
    · rw [hh, pagesOf_map_self, List.mem_append, List.mem_singleton] at hmem
      rcases hmem with hold | rfl
      · exact inv.user hold
      · exact hm.user
    · rw [pagesOf_map_of_ne hh] at hmem
      exact inv.user hmem
  entry := by
    intro h' va' q hva' hq
    by_cases hsame : h' = h ∧ va' = va
    · rcases hm.node_self with ⟨e, he, -, hmp, hflag⟩
      rw [hsame.1, hsame.2, hm.nodeOf_self] at hq
      refine ⟨e, Option.some.inj hq ▸ he, ?_, ?_⟩
      · rw [hsame.1, hsame.2, latest_map_self, hmp]
      · rw [hflag, hm.vmHead, hsame.1]
    · rw [hm.nodeOf_other hva' hsame] at hq
      rw [hm.node_other (hm.ne_of_other inv.linked hva' hsame hq), hm.vmHead,
        latest_map_of_ne hsame]
      exact inv.entry hva' hq
  absent := by
    intro h' va' hva' hnone
    by_cases hsame : h' = h ∧ va' = va
    · rw [hsame.1, hsame.2, hm.nodeOf_self] at hnone
      cases hnone
    · rw [hm.nodeOf_other hva' hsame] at hnone
      rw [latest_map_of_ne hsame]
      exact inv.absent hva' hnone
  complete := by
    intro h' q l hl hq
    by_cases hh : h' = h
    · subst hh
      rcases hm.chain_self.1 hl with ⟨k, rfl, -, hk⟩
      rcases hm.owns_iff.1 hq with hold | ⟨-, rfl⟩
      · exact List.mem_cons_of_mem _ (inv.complete hk hold)
      · exact List.mem_cons_self
    · rw [hm.chain_other inv.linked hh] at hl
      rcases hm.owns_iff.1 hq with hold | ⟨hsame, -⟩
      · exact inv.complete hl hold
      · exact absurd hsame hh
  finite := by
    intro h'
    by_cases hh : h' = h
    · subst hh
      exact inv.mapped_finite hm
    · rw [pagesOf_map_of_ne hh, ← inv.finite]
      simp only [hm.chain_other inv.linked hh]
  host := by rw [hm.host, hm.vmHead, inv.host, hostOf_map]

/-! ## `amSwitch` -/

def Lists (m : Machine) (head : Option Nat) (l : List Nat) : Prop :=
  Chain (nextOf m.nodes) (head.bind (headOf m)) l

def switched (head : Option Nat) (l l' : List Nat) (m : Machine) : Machine :=
  { m with
    nodes := flagged true l' (flagged false l m.nodes)
    host := sweep mapHost (flagged false l m.nodes) l' (sweep unmapHost m.nodes l m.host)
    vmHead := head }

theorem foreachOf_eq {body : Nat → Machine → Except Stop Machine}
    (hborn : ∀ h, head = some h → (m.heads h).isSome) :
    foreachOf body fuel head m = listForeach body fuel (head.bind (headOf m)) m := by
  cases head with
  | none =>
      cases fuel with
      | zero => rfl
      | succ fuel => rfl
  | some h =>
      rcases Option.isSome_iff_exists.1 (hborn h rfl) with ⟨H, hH⟩
      simp [foreachOf, headAt, hH, headOf, bind, Except.bind]

theorem userNodes_flagged {nodes : Nat → Option PageMap} {b : Bool} (hl' : UserNodes nodes l') :
    UserNodes (flagged b l nodes) l' := by
  intro p hp
  rcases hl' p hp with ⟨e, he, hva⟩
  exact ⟨_, flagged_some he, hva⟩

theorem userNodes (inv : Agrees log m) (hl : Lists m head l) : UserNodes m.nodes l := by
  cases head with
  | none =>
      cases hl
      intro p hp
      cases hp
  | some h => exact inv.linked.userNodes hl

def cleared (l : List Nat) (m : Machine) : Machine :=
  { m with nodes := flagged false l m.nodes, host := sweep unmapHost m.nodes l m.host }

theorem foreachOf_unmapNode (inv : Agrees log m) (hl : Lists m m.vmHead l) :
    foreachOf unmapNode fuel m.vmHead m =
      if l.length ≤ fuel then .ok (cleared l m) else .error .fuel := by
  rw [foreachOf_eq fun h hh => inv.linked.current hh]
  exact listForeach_sweep (fun he _ => unmapNode_eq he) hl (inv.userNodes hl)

theorem foreachOf_mapNode (inv : Agrees log m) (hborn : ∀ h, head = some h → (m.heads h).isSome)
    (hl' : Lists m head l') :
    foreachOf mapNode fuel head (cleared l m) =
      if l'.length ≤ fuel then
        .ok { switched head l l' m with vmHead := m.vmHead }
      else .error .fuel := by
  rw [foreachOf_eq (m := cleared l m) hborn]
  have hchain : Chain (nextOf (cleared l m).nodes) (head.bind (headOf m)) l' := by
    rw [cleared, nextOf_flagged]
    exact hl'
  exact listForeach_sweep mapNode_eq hchain (userNodes_flagged (inv.userNodes hl'))

/-- Between two lists that end, a switch returns as soon as it has the fuel for both. -/
theorem amSwitch_eq (inv : Agrees log m) (hborn : ∀ h, head = some h → (m.heads h).isSome)
    (hne : head ≠ m.vmHead) (hl : Lists m m.vmHead l) (hl' : Lists m head l') :
    amSwitch fuel head m =
      if l.length ≤ fuel ∧ l'.length ≤ fuel then .ok (switched head l l' m) else .error .fuel := by
  simp only [amSwitch, inv.enabled, Bool.true_eq_false, if_false, if_neg hne, bind, Except.bind,
    inv.foreachOf_unmapNode hl]
  by_cases hfuel : l.length ≤ fuel
  · simp only [if_pos hfuel, inv.foreachOf_mapNode hborn hl']
    by_cases hfuel' : l'.length ≤ fuel
    · simp only [hfuel, hfuel', and_self, if_true]
      rfl
    · simp only [hfuel', and_false, if_false]
  · simp only [hfuel, false_and, if_false]

theorem foreachOf_finite {body : Nat → Machine → Except Stop Machine}
    (hbody : ∀ {p m m'}, body p m = .ok m' → nextOf m'.nodes = nextOf m.nodes)
    (hok : foreachOf body fuel head m = .ok m') :
    (∀ h, head = some h → (m.heads h).isSome) ∧ ∃ l, Lists m head l := by
  have hborn : ∀ h, head = some h → (m.heads h).isSome := by
    intro h hh
    cases hH : m.heads h with
    | none => simp [foreachOf, hh, headAt, hH, bind, Except.bind] at hok
    | some H => rfl
  rw [foreachOf_eq hborn] at hok
  exact ⟨hborn, (listForeach_finite hbody hok).1⟩

theorem amSwitch_ok (inv : Agrees log m) (hok : amSwitch fuel head m = .ok m') :
    head = m.vmHead ∧ m' = m ∨
      head ≠ m.vmHead ∧ (∀ h, head = some h → (m.heads h).isSome) ∧
        ∃ l l', Lists m m.vmHead l ∧ Lists m head l' ∧ m' = switched head l l' m := by
  by_cases hne : head = m.vmHead
  · have hdisabled : ¬m.vmeEnable = false := by simp [inv.enabled]
    rw [amSwitch, if_neg hdisabled, if_pos hne] at hok
    refine Or.inl ⟨hne, ?_⟩
    rw [← Except.ok.inj hok, hne]
  · have hloops := hok
    simp only [amSwitch, inv.enabled, Bool.true_eq_false, if_false, if_neg hne, bind,
      Except.bind] at hloops
    split at hloops
    next => cases hloops
    next m₁ hfirst =>
      split at hloops
      next => cases hloops
      next m₂ hsecond =>
        rcases (foreachOf_finite unmapNode_links hfirst).2 with ⟨l, hl⟩
        rw [inv.foreachOf_unmapNode hl] at hfirst
        split at hfirst
        next =>
          cases hfirst
          rcases foreachOf_finite mapNode_links hsecond with ⟨hborn, l', hl'⟩
          have hl' : Lists m head l' := by
            rw [Lists, cleared, nextOf_flagged] at hl'
            exact hl'
          rw [inv.amSwitch_eq hborn hne hl hl'] at hok
          split at hok
          next => exact Or.inr ⟨hne, hborn, l, l', hl, hl', (Except.ok.inj hok).symm⟩
          next => cases hok
        next => cases hfirst

theorem mem_iff (inv : Agrees log m) (hl : Lists m head l) (hp : Owns m h p) :
    p ∈ l ↔ head = some h := by
  cases head with
  | none =>
      cases hl
      simp
  | some h' =>
      rw [Option.some.injEq]
      constructor
      · intro hmem
        exact inv.linked.apart (inv.linked.owns_of_mem hl hmem) hp
      · intro hh
        subst hh
        exact inv.complete hl hp

theorem switched_sameLists : SameLists m (switched head l l' m) where
  hash := rfl
  head := rfl
  next := by rw [switched, nextOf_flagged, nextOf_flagged]
  vas := by
    intro p
    have hp : (switched head l l' m).nodes p = flagged true l' (flagged false l m.nodes) p := rfl
    cases h : m.nodes p with
    | none => rw [hp, flagged_none (flagged_none h)]
    | some e =>
        rw [hp, flagged_some (flagged_some h)]
        rfl

/-- The first loop leaves no page on the host. -/
theorem host_cleared (inv : Agrees log m) (hl : Lists m m.vmHead l) :
    sweep unmapHost m.nodes l m.host va = none := by
  cases hva : m.host va with
  | none => exact sweep_unmapHost_of_none hva
  | some page =>
      rw [inv.host] at hva
      rcases inv.node_of_hostOf hva with ⟨h, p, e, hh, hown, he, rfl, -, hflag⟩
      exact sweep_unmapHost ((inv.mem_iff hl hown).2 hh) he (hflag.trans (decide_eq_true hh))

/-- The second loop puts the pages of `head` there. -/
theorem host_mapped (inv : Agrees log m) (hl' : Lists m head l') {host : Nat → Option HostPage}
    (hhost : ∀ va, host va = none) : sweep mapHost m.nodes l' host va = hostOf log head va := by
  cases hva : hostOf log head va with
  | none =>
      rw [sweep_mapHost_of_not, hhost]
      intro p hp e he heva
      cases head with
      | none =>
          cases hl'
          cases hp
      | some h =>
          rcases inv.linked.owned (inv.linked.owns_of_mem hl' hp) with ⟨e', he', huser, hnode⟩
          rw [he] at he'
          cases he'
          rcases inv.entry huser hnode with ⟨e', -, hlatest, -⟩
          simp [hostOf, ← heva, hlatest] at hva
  | some page =>
      rcases inv.node_of_hostOf hva with ⟨h, p, e, hh, hown, he, rfl, hpage, -⟩
      rw [sweep_mapHost ((inv.mem_iff hl' hown).2 hh) he, hpage]
      intro p' hp' e' he' heva
      subst hh
      rcases inv.linked.owned (inv.linked.owns_of_mem hl' hp') with ⟨e₁, he₁, -, hnode'⟩
      rcases inv.linked.owned hown with ⟨e₂, he₂, -, hnode⟩
      rw [he'] at he₁
      rw [he] at he₂
      cases he₁
      cases he₂
      rw [heva, hnode] at hnode'
      exact (Option.some.inj hnode').symm

theorem switched_agrees (inv : Agrees log m)
    (hborn : ∀ h, head = some h → (m.heads h).isSome) (hl : Lists m m.vmHead l)
    (hl' : Lists m head l') : Agrees log (switched head l l' m) where
  linked := switched_sameLists.linked inv.linked inv.linked.headPage (fun hp => hp)
    inv.linked.space (hborn _)
  enabled := inv.enabled
  user := inv.user
  entry := by
    intro h va p hva hp
    rcases inv.entry hva hp with ⟨e, he, hlatest, hflag⟩
    refine ⟨_, flagged_some (flagged_some he), hlatest, ?_⟩
    have hown : Owns m h p := ⟨va, hva, hp⟩
    by_cases hhead : head = some h
    · simp [switched, inv.mem_iff hl' hown, hhead]
    · simp [switched, inv.mem_iff hl' hown, inv.mem_iff hl hown, hhead, hflag]
  absent := inv.absent
  complete := by
    intro h p k hk hp
    rw [switched_sameLists.next] at hk
    exact inv.complete hk hp
  finite := by
    intro h
    rw [switched_sameLists.next]
    exact inv.finite h
  host := by
    funext va
    show sweep mapHost (flagged false l m.nodes) l' _ va = hostOf log head va
    rw [sweep_mapHost_flagged]
    exact inv.host_mapped hl' fun va => inv.host_cleared hl

end Agrees

/-! ## Runs -/

theorem Agrees.log_congr {log' : List Event} (inv : Agrees log m)
    (hlatest : latest log' = latest log) (hpages : ∀ h, pagesOf log' h = pagesOf log h) :
    Agrees log' m where
  linked := inv.linked
  enabled := inv.enabled
  user := by
    intro h va hva
    rw [hpages] at hva
    exact inv.user hva
  entry := by
    rw [hlatest]
    exact inv.entry
  absent := by
    rw [hlatest]
    exact inv.absent
  complete := inv.complete
  finite := by
    intro h
    rw [hpages]
    exact inv.finite h
  host := by
    funext va
    rw [inv.host, hostOf, hostOf, hlatest]

theorem Agrees.step (inv : Agrees log m) (hstep : Step pgsize pgalloc m es m') :
    Agrees (log ++ es) m' := by
  rcases hstep with ⟨fuel, call, hstep⟩
  cases call with
  | protect as =>
      rcases bind_eq_ok.1 hstep with ⟨m₁, hok, hstep⟩
      rcases inv.afterProtect hok with ⟨hagrees, a, ha⟩
      simp only [ha, Option.map_some, Option.toList_some, Except.ok.injEq,
        Prod.mk.injEq] at hstep
      rcases hstep with ⟨rfl, rfl⟩
      exact hagrees.log_congr (latest_protect as) fun h => pagesOf_protect as
  | map as va pa prot =>
      rcases bind_eq_ok.1 hstep with ⟨m₁, hok, hstep⟩
      rcases map_mapped hok with ⟨a, p, -, ha, hm⟩
      simp only [ha, Option.map_some, Option.toList_some, Except.ok.injEq,
        Prod.mk.injEq] at hstep
      rcases hstep with ⟨rfl, rfl⟩
      exact inv.afterMapped hm
  | switch head =>
      rcases bind_eq_ok.1 hstep with ⟨m₁, hok, hstep⟩
      cases hstep
      have hagrees : Agrees log m' := by
        rcases inv.amSwitch_ok hok with ⟨-, rfl⟩ | ⟨-, hborn, l, l', hl, hl', rfl⟩
        · exact inv
        · exact inv.switched_agrees hborn hl hl'
      exact hagrees.log_congr (latest_switch head) fun h => pagesOf_switch head

/-- Memory agrees with the log after every run, whatever is mapped again in it. -/
theorem run_agrees (run : Run anyStep (Step pgsize pgalloc) start log m) : Agrees log m := by
  apply run.invariant Agrees start_agrees
  intro log es m m' _ _ inv hstep
  exact inv.step hstep

end OSLabs.Native
