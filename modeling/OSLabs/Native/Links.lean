import Mathlib.Tactic.ByContra
import OSLabs.Native.Foreach
import OSLabs.Native.Log

/-! # Lists, hash tables and `map`

In every reachable state, whatever pages are mapped again, the hash table of an address
space finds a node for each of its pages, and the links of these nodes stay among them.
`map` changes one node and hangs it in front of its list, which then still ends if it
ended and did not have the node.
-/

namespace OSLabs.Native

open OSLabs.Lib

/-! ## Keys -/

theorem digitChar_injOn : ∀ d < 16, ∀ d' < 16, d.digitChar = d'.digitChar → d = d' := by decide

theorem toDigits_injective : Function.Injective (Nat.toDigits 16) := by
  intro n
  induction n using Nat.strongRecOn with
  | ind n ih =>
      intro n' h
      rw [Nat.toDigits_eq_if (by decide), Nat.toDigits_eq_if (n := n') (by decide)] at h
      by_cases hn : n < 16
      · by_cases hn' : n' < 16
        · rw [if_pos hn, if_pos hn', List.singleton_inj] at h
          exact digitChar_injOn n hn n' hn' h
        · rw [if_pos hn, if_neg hn'] at h
          have hlen := congrArg List.length h
          have hpos : 0 < (Nat.toDigits 16 (n' / 16)).length := Nat.length_toDigits_pos
          simp only [List.length_singleton, List.length_append] at hlen
          omega
      · by_cases hn' : n' < 16
        · rw [if_neg hn, if_pos hn'] at h
          have hlen := congrArg List.length h
          have hpos : 0 < (Nat.toDigits 16 (n / 16)).length := Nat.length_toDigits_pos
          simp only [List.length_singleton, List.length_append] at hlen
          omega
        · rw [if_neg hn, if_neg hn'] at h
          rcases List.append_inj' h rfl with ⟨hdiv, hmod⟩
          have hdiv := ih (n / 16) (by omega) hdiv
          have hmod := digitChar_injOn (n % 16) (by omega) (n' % 16) (by omega)
            (List.singleton_inj.1 hmod)
          omega

theorem hexKey_inj {va va' : Nat} (hva : inRange va userSpace) (hva' : inRange va' userSpace)
    (h : hexKey va = hexKey va') : va = va' := by
  have hmod := toDigits_injective h
  simp only [inRange, userSpace] at hva hva'
  omega

/-! ## The shape of memory -/

def headOf (m : Machine) (h : Nat) : Option Nat := (m.heads h).bind (·.head)

def nodeOf (m : Machine) (h va : Nat) : Option Nat := (m.heads h).bind (·.hash (hexKey va))

/-- `p` is the node of a user page of `h`. -/
def Owns (m : Machine) (h p : Nat) : Prop := ∃ va, inRange va userSpace ∧ nodeOf m h va = some p

/-- Heads and nodes are pages of their own, and links stay in one address space. -/
structure Linked (m : Machine) : Prop where
  headPage : ∀ {h}, (m.heads h).isSome → h ∈ m.allocated
  nodePage : ∀ {p}, (m.nodes p).isSome → p ∈ m.allocated
  space : ∀ {as a}, m.spaces as = some a → (m.heads a.ptr).isSome
  current : ∀ {h}, m.vmHead = some h → (m.heads h).isSome
  node : ∀ {h va p}, inRange va userSpace → nodeOf m h va = some p →
    ∃ e, m.nodes p = some e ∧ e.va = va
  apart : ∀ {h h' p}, Owns m h p → Owns m h' p → h = h'
  head : ∀ {h p}, headOf m h = some p → Owns m h p
  next : ∀ {h p k}, Owns m h p → nextOf m.nodes p = some k → Owns m h k

section Linked

variable {m m' : Machine} {h h' va va' p : Nat} {l : List Nat} {mp : Mapping}

theorem Linked.owns_of_chain (inv : Linked m) {q : Option Nat}
    (hq : ∀ {p}, q = some p → Owns m h p) (hl : Chain (nextOf m.nodes) q l) :
    ∀ p ∈ l, Owns m h p := by
  induction hl with
  | nil => simp
  | @cons a l _ ih =>
      have ha := hq rfl
      intro p hp
      cases hp with
      | head => exact ha
      | tail _ hp => exact ih (fun hk => inv.next ha hk) p hp

theorem Linked.owns_of_mem (inv : Linked m) (hl : Chain (nextOf m.nodes) (headOf m h) l)
    (hp : p ∈ l) : Owns m h p :=
  inv.owns_of_chain (fun hhead => inv.head hhead) hl p hp

theorem Linked.owned (inv : Linked m) (hp : Owns m h p) :
    ∃ e, m.nodes p = some e ∧ inRange e.va userSpace ∧ nodeOf m h e.va = some p := by
  rcases hp with ⟨va, hva, hp⟩
  rcases inv.node hva hp with ⟨e, he, rfl⟩
  exact ⟨e, he, hva, hp⟩

theorem Linked.userNodes (inv : Linked m) (hl : Chain (nextOf m.nodes) (headOf m h) l) :
    UserNodes m.nodes l := by
  intro p hp
  rcases inv.owned (inv.owns_of_mem hl hp) with ⟨e, he, hva, _⟩
  exact ⟨e, he, hva⟩

structure SameLists (m m' : Machine) : Prop where
  hash : nodeOf m' = nodeOf m
  head : headOf m' = headOf m
  next : nextOf m'.nodes = nextOf m.nodes
  vas : ∀ p, (m'.nodes p).map (·.va) = (m.nodes p).map (·.va)

theorem SameLists.owns_iff (same : SameLists m m') : Owns m' h p ↔ Owns m h p := by
  rw [Owns, Owns, same.hash]

theorem SameLists.linked (same : SameLists m m') (inv : Linked m)
    (headPage : ∀ {h}, (m'.heads h).isSome → h ∈ m'.allocated)
    (allocated : ∀ {p}, p ∈ m.allocated → p ∈ m'.allocated)
    (space : ∀ {as a}, m'.spaces as = some a → (m'.heads a.ptr).isSome)
    (current : ∀ {h}, m'.vmHead = some h → (m'.heads h).isSome) : Linked m' where
  headPage := headPage
  space := space
  current := current
  nodePage := by
    intro p hp
    rw [← Option.isSome_map (f := (·.va)), same.vas, Option.isSome_map] at hp
    exact allocated (inv.nodePage hp)
  node := by
    intro h va p hva hp
    rw [same.hash] at hp
    rcases inv.node hva hp with ⟨e, he, hea⟩
    have hsame := same.vas p
    rw [he, Option.map_some, hea, Option.map_eq_some_iff] at hsame
    exact hsame
  apart := by
    intro h h' p hp hp'
    exact inv.apart (same.owns_iff.1 hp) (same.owns_iff.1 hp')
  head := by
    intro h p hp
    rw [same.head] at hp
    exact same.owns_iff.2 (inv.head hp)
  next := by
    intro h p k hp hk
    rw [same.next] at hk
    exact same.owns_iff.2 (inv.next (same.owns_iff.1 hp) hk)

end Linked

/-! ## What `map` does -/

/-- From `m` to `m'`, the page `va` of `h` was mapped in the node `p`: the one that the hash
table had, else a new one. -/
structure Mapped (h va : Nat) (mp : Mapping) (p : Nat) (m m' : Machine) : Prop where
  user : inRange va userSpace
  found : nodeOf m h va = some p ∧ m'.allocated = m.allocated ∨
    nodeOf m h va = none ∧ p ∉ m.allocated ∧ m'.allocated = m.allocated ++ [p]
  nodes : ∃ e : PageMap, m'.nodes = Function.update m.nodes p (some e) ∧ e.va = va ∧
    e.mapping = mp ∧ e.next = headOf m h ∧ e.isMapped = decide (m.vmHead = some h)
  head : headOf m' = Function.update (headOf m) h (some p)
  nodeOf_self : nodeOf m' h va = some p
  nodeOf_other : ∀ {h' va'}, inRange va' userSpace → ¬(h' = h ∧ va' = va) →
    nodeOf m' h' va' = nodeOf m h' va'
  heads : ∀ h', (m'.heads h').isSome = (m.heads h').isSome
  spaces : m'.spaces = m.spaces
  vmHead : m'.vmHead = m.vmHead
  vmeEnable : m'.vmeEnable = m.vmeEnable
  host : m'.host =
    if m.vmHead = some h then Function.update m.host va (some mp.hostPage) else m.host

section MapStep

variable {pgsize : Nat} {pgalloc : Pgalloc} {m m' : Machine} {as h h' va va' pa prot p : Nat}
  {l : List Nat} {mp : Mapping}

theorem assert_ok {text : String} {P : Prop} [Decidable P] {u : Unit}
    (h : assert text P = .ok u) : P := by
  unfold assert at h
  split at h
  next hP => exact hP
  next => cases h

def putFirst (a : AddrSpace) (H : VMHead) (va pa prot p : Nat) (key : List Char) (n : Nat)
    (ps : List Nat) (m : Machine) : Machine :=
  { m with
    nodes := Function.update m.nodes p
      (some ⟨va, pa, H.head, prot, decide (m.vmHead = some a.ptr), key⟩)
    heads := Function.update m.heads a.ptr
      (some ⟨some p, Function.update H.hash (hexKey va) (some p), n⟩)
    allocated := ps
    host := if m.vmHead = some a.ptr then
      Function.update m.host va (some (pmemPage pa prot)) else m.host }

theorem headAt_ok {H : VMHead} (h : headAt m p = .ok H) : m.heads p = some H := by
  unfold headAt at h
  split at h
  next H' hH =>
    cases h
    exact hH
  next => cases h

theorem findOrEnter_ok {m₁ : Machine} (hok : findOrEnter pgalloc h va m = .ok (p, m₁)) :
    ∃ H, m.heads h = some H ∧
      (H.hash (hexKey va) = some p ∧ m₁ = m ∨
        H.hash (hexKey va) = none ∧ p ∉ m.allocated ∧
          m₁ = setHead h
            { H with hash := Function.update H.hash (hexKey va) (some p), nrPage := H.nrPage + 1 }
            { m with
              allocated := m.allocated ++ [p]
              nodes := Function.update m.nodes p (some ⟨0, 0, none, 0, false, hexKey va⟩) }) := by
  rcases bind_eq_ok.1 hok with ⟨H, hH, hok⟩
  refine ⟨H, headAt_ok hH, ?_⟩
  split at hok
  next q hq =>
    cases hok
    exact Or.inl ⟨hq, rfl⟩
  next hnone =>
    split at hok
    next => cases hok
    next q hnew =>
      cases hok
      exact Or.inr ⟨hnone, pgalloc.fresh hnew, rfl⟩

theorem putFirst_eq {a : AddrSpace} {H : VMHead} {e : PageMap}
    (hhash : H.hash (hexKey va) = some p) :
    (if (setHead a.ptr { H with head := some p }
        (setNode p { e with va := va, pa := pa, prot := prot, isMapped := false, next := H.head }
          m)).vmHead = some a.ptr then
      (.ok (setNode p
        { e with va := va, pa := pa, prot := prot, isMapped := true, next := H.head }
        (pmemMap va pa prot (setHead a.ptr { H with head := some p }
          (setNode p
            { e with va := va, pa := pa, prot := prot, isMapped := false, next := H.head } m)))) :
        Except Stop Machine)
    else
      .ok (setHead a.ptr { H with head := some p }
        (setNode p { e with va := va, pa := pa, prot := prot, isMapped := false, next := H.head }
          m))) =
      .ok (putFirst a H va pa prot p e.key H.nrPage m.allocated m) := by
  have hupdate : Function.update H.hash (hexKey va) (some p) = H.hash := by
    rw [← hhash, Function.update_eq_self]
  by_cases hcur : m.vmHead = some a.ptr
  · rw [if_pos (by exact hcur)]
    simp [putFirst, setHead, setNode, pmemMap, hcur, hupdate]
  · rw [if_neg (by exact hcur)]
    simp [putFirst, setHead, setNode, hcur, hupdate]

theorem map_ok (h : map pgsize pgalloc as va pa prot m = .ok m') :
    ∃ a H p key n ps, m.spaces as = some a ∧ m.heads a.ptr = some H ∧ inRange va userSpace ∧
      (H.hash (hexKey va) = some p ∧ ps = m.allocated ∨
        H.hash (hexKey va) = none ∧ p ∉ m.allocated ∧ ps = m.allocated ++ [p]) ∧
      m' = putFirst a H va pa prot p key n ps m := by
  rw [map] at h
  rcases bind_eq_ok.1 h with ⟨_, huser, hva⟩
  rcases bind_eq_ok.1 hva with ⟨_, _, hpa⟩
  rcases bind_eq_ok.1 hpa with ⟨_, _, hspace⟩
  split at hspace
  next => cases hspace
  next a ha =>
    rcases bind_eq_ok.1 hspace with ⟨⟨p, m₁⟩, hfind, hnode⟩
    rcases bind_eq_ok.1 hnode with ⟨e, _, hhash⟩
    rcases bind_eq_ok.1 hhash with ⟨H₁, hH₁, hput⟩
    have hhead : m₁.heads a.ptr = some H₁ := headAt_ok hH₁
    rcases findOrEnter_ok hfind with ⟨H, hH, ⟨hp, rfl⟩ | ⟨hnone, hfresh, rfl⟩⟩
    · rw [hH] at hhead
      cases hhead
      rw [putFirst_eq hp] at hput
      exact ⟨a, H₁, p, e.key, H₁.nrPage, m₁.allocated, ha, hH, assert_ok huser,
        Or.inl ⟨hp, rfl⟩, (Except.ok.inj hput).symm⟩
    · simp only [setHead, Function.update_self, Option.some.injEq] at hhead
      subst hhead
      have hentered : (VMHead.mk H.head (Function.update H.hash (hexKey va) (some p))
          (H.nrPage + 1)).hash (hexKey va) = some p := Function.update_self ..
      rw [putFirst_eq hentered] at hput
      refine ⟨a, H, p, e.key, H.nrPage + 1, m.allocated ++ [p], ha, hH,
        assert_ok huser, Or.inr ⟨hnone, hfresh, rfl⟩, ?_⟩
      rw [← Except.ok.inj hput]
      simp only [putFirst, setHead, Function.update_idem]
      rfl

theorem map_mapped (h : map pgsize pgalloc as va pa prot m = .ok m') :
    ∃ a p, m.spaces as = some a ∧ m'.spaces as = some a ∧ Mapped a.ptr va ⟨pa, prot⟩ p m m' := by
  rcases map_ok h with ⟨a, H, p, key, n, ps, ha, hH, huser, hfound, rfl⟩
  have hnode : nodeOf m a.ptr va = H.hash (hexKey va) := by simp [nodeOf, hH]
  refine ⟨a, p, ha, ha, ?_⟩
  exact
    { user := huser
      found := by rw [hnode]; exact hfound
      nodes := ⟨_, rfl, rfl, rfl, by simp [headOf, hH], rfl⟩
      head := by
        funext h'
        by_cases hh : h' = a.ptr
        · simp [headOf, putFirst, hh]
        · simp [headOf, putFirst, hh]
      nodeOf_self := by simp [nodeOf, putFirst]
      nodeOf_other := by
        intro h' va' hva' hne
        by_cases hh : h' = a.ptr
        · have hkey : hexKey va' ≠ hexKey va := by
            intro hkey
            exact hne ⟨hh, hexKey_inj hva' huser hkey⟩
          simp [nodeOf, putFirst, hh, hH, hkey]
        · simp [nodeOf, putFirst, hh]
      heads := by
        intro h'
        by_cases hh : h' = a.ptr
        · simp [putFirst, hh, hH]
        · simp [putFirst, hh]
      spaces := rfl
      vmHead := rfl
      vmeEnable := rfl
      host := rfl }

namespace Mapped

variable {q : Nat}

theorem ne_of_other (hm : Mapped h va mp p m m') (inv : Linked m) (hva' : inRange va' userSpace)
    (hne : ¬(h' = h ∧ va' = va)) (hq : nodeOf m h' va' = some q) : q ≠ p := by
  intro heq
  subst heq
  rcases inv.node hva' hq with ⟨e, he, rfl⟩
  rcases hm.found with ⟨hfound, -⟩ | ⟨-, hfresh, -⟩
  · rcases inv.node hm.user hfound with ⟨e', he', hva⟩
    rw [he] at he'
    cases he'
    exact hne ⟨inv.apart ⟨_, hva', hq⟩ ⟨_, hm.user, hfound⟩, hva⟩
  · exact hfresh (inv.nodePage (by rw [he]; rfl))

theorem owns_iff (hm : Mapped h va mp p m m') :
    Owns m' h' q ↔ Owns m h' q ∨ h' = h ∧ q = p := by
  constructor
  · intro hown
    rcases hown with ⟨va', hva', hq⟩
    by_cases hsame : h' = h ∧ va' = va
    · rw [hsame.1, hsame.2, hm.nodeOf_self] at hq
      exact Or.inr ⟨hsame.1, (Option.some.inj hq).symm⟩
    · rw [hm.nodeOf_other hva' hsame] at hq
      exact Or.inl ⟨va', hva', hq⟩
  · intro hown
    rcases hown with ⟨va', hva', hq⟩ | ⟨hh, hq⟩
    · by_cases hsame : h' = h ∧ va' = va
      · rw [hsame.1, hsame.2] at hq
        rcases hm.found with ⟨hfound, -⟩ | ⟨hnone, -⟩
        · rw [hfound] at hq
          exact ⟨va, hm.user, by rw [hsame.1, hm.nodeOf_self, hq]⟩
        · rw [hnone] at hq
          cases hq
      · exact ⟨va', hva', by rw [hm.nodeOf_other hva' hsame, hq]⟩
    · exact ⟨va, hm.user, by rw [hh, hq, hm.nodeOf_self]⟩

theorem nextOf_eq (hm : Mapped h va mp p m m') :
    nextOf m'.nodes = Function.update (nextOf m.nodes) p (headOf m h) := by
  rcases hm.nodes with ⟨e, hnodes, -, -, hnext, -⟩
  rw [hnodes, nextOf_update, hnext]

theorem node_self (hm : Mapped h va mp p m m') :
    ∃ e, m'.nodes p = some e ∧ e.va = va ∧ e.mapping = mp ∧
      e.isMapped = decide (m.vmHead = some h) := by
  rcases hm.nodes with ⟨e, hnodes, hva, hmp, -, hflag⟩
  exact ⟨e, by rw [hnodes, Function.update_self], hva, hmp, hflag⟩

theorem node_other (hm : Mapped h va mp p m m') (hq : q ≠ p) : m'.nodes q = m.nodes q := by
  rcases hm.nodes with ⟨e, hnodes, -⟩
  rw [hnodes, Function.update_of_ne hq]

theorem allocated (hm : Mapped h va mp p m m') (hq : q ∈ m.allocated) : q ∈ m'.allocated := by
  rcases hm.found with ⟨-, halloc⟩ | ⟨-, -, halloc⟩
  · rwa [halloc]
  · rw [halloc]
    exact List.mem_append_left _ hq

theorem own_of_owns (hm : Mapped h va mp p m m') (inv : Linked m) (hp : Owns m h' p) : h' = h := by
  rcases hp with ⟨va', hva', hp⟩
  by_contra hne
  exact hm.ne_of_other inv hva' (fun hboth => hne hboth.1) hp rfl

theorem linked (hm : Mapped h va mp p m m') (inv : Linked m) : Linked m' where
  headPage := by
    intro h' hh'
    rw [hm.heads] at hh'
    exact hm.allocated (inv.headPage hh')
  nodePage := by
    intro q hq
    by_cases hqp : q = p
    · subst hqp
      rcases hm.found with ⟨hfound, -⟩ | ⟨-, -, halloc⟩
      · rcases inv.node hm.user hfound with ⟨e, he, -⟩
        exact hm.allocated (inv.nodePage (by rw [he]; rfl))
      · rw [halloc]
        exact List.mem_append_right _ List.mem_cons_self
    · rw [hm.node_other hqp] at hq
      exact hm.allocated (inv.nodePage hq)
  space := by
    intro as a ha
    rw [hm.spaces] at ha
    rw [hm.heads]
    exact inv.space ha
  current := by
    intro h' hh'
    rw [hm.vmHead] at hh'
    rw [hm.heads]
    exact inv.current hh'
  node := by
    intro h' va' q hva' hq
    by_cases hsame : h' = h ∧ va' = va
    · rw [hsame.1, hsame.2, hm.nodeOf_self] at hq
      rcases hm.node_self with ⟨e, he, hva, -⟩
      exact ⟨e, by rw [← Option.some.inj hq, he], by rw [hva, hsame.2]⟩
    · rw [hm.nodeOf_other hva' hsame] at hq
      rw [hm.node_other (hm.ne_of_other inv hva' hsame hq)]
      exact inv.node hva' hq
  apart := by
    intro h₁ h₂ q h₁q h₂q
    rcases hm.owns_iff.1 h₁q with hold₁ | ⟨rfl, rfl⟩
    · rcases hm.owns_iff.1 h₂q with hold₂ | ⟨rfl, rfl⟩
      · exact inv.apart hold₁ hold₂
      · exact hm.own_of_owns inv hold₁
    · rcases hm.owns_iff.1 h₂q with hold₂ | ⟨rfl, -⟩
      · exact (hm.own_of_owns inv hold₂).symm
      · rfl
  head := by
    intro h' q hq
    rw [hm.head] at hq
    by_cases hh : h' = h
    · subst hh
      rw [Function.update_self] at hq
      exact hm.owns_iff.2 (Or.inr ⟨rfl, (Option.some.inj hq).symm⟩)
    · rw [Function.update_of_ne hh] at hq
      exact hm.owns_iff.2 (Or.inl (inv.head hq))
  next := by
    intro h' q k hq hk
    rw [hm.nextOf_eq] at hk
    by_cases hqp : q = p
    · subst hqp
      rw [Function.update_self] at hk
      have hh : h' = h := by
        rcases hm.owns_iff.1 hq with hold | ⟨hh, -⟩
        · exact hm.own_of_owns inv hold
        · exact hh
      rw [hh]
      exact hm.owns_iff.2 (Or.inl (inv.head hk))
    · rw [Function.update_of_ne hqp] at hk
      rcases hm.owns_iff.1 hq with hold | ⟨-, hnew⟩
      · exact hm.owns_iff.2 (Or.inl (inv.next hold hk))
      · exact absurd hnew hqp

/-- The list of the address space that maps: the node in front, and it was not on it before. -/
theorem chain_self (hm : Mapped h va mp p m m') :
    Chain (nextOf m'.nodes) (headOf m' h) l ↔
      ∃ k, l = p :: k ∧ p ∉ k ∧ Chain (nextOf m.nodes) (headOf m h) k := by
  rw [hm.nextOf_eq, hm.head, Function.update_self]
  constructor
  · exact Chain.of_push
  · intro hk
    rcases hk with ⟨k, rfl, hp, hk⟩
    exact hk.push hp

theorem chain_other (hm : Mapped h va mp p m m') (inv : Linked m) (hne : h' ≠ h) :
    Chain (nextOf m'.nodes) (headOf m' h') l ↔
      Chain (nextOf m.nodes) (headOf m h') l := by
  have hhead : headOf m' h' = headOf m h' := by
    rw [hm.head, Function.update_of_ne hne]
  have hnext : ∀ q, Owns m' h' q → nextOf m'.nodes q = nextOf m.nodes q := by
    intro q hq
    have hqp : q ≠ p := by
      intro hqp
      subst hqp
      rcases hm.owns_iff.1 hq with hold | ⟨hh, -⟩
      · exact hne (hm.own_of_owns inv hold)
      · exact hne hh
    rw [hm.nextOf_eq, Function.update_of_ne hqp]
  constructor
  · intro hl
    rw [← hhead]
    exact hl.congr fun q hq => (hnext q ((hm.linked inv).owns_of_mem hl hq)).symm
  · intro hl
    rw [hhead]
    exact hl.congr fun q hq => hnext q (hm.owns_iff.2 (Or.inl (inv.owns_of_mem hl hq)))

end Mapped

end MapStep

end OSLabs.Native
