import Mathlib.Data.List.Basic
import Mathlib.Data.List.Nodup

/-! Circular doubly linked lists with a head element, on nodes that hold their
own links: insertion after the head, removal, and a traversal whose body may
remove the node it is at. -/

namespace FpgaLabs.Sync

structure Links (N : Type) where
  next : N → N
  prev : N → N

section
variable {N : Type}

/-- From `a` through `xs` to `b`, linked both ways. -/
def Chain (m : Links N) : N → List N → N → Prop
  | a, [], b => m.next a = b ∧ m.prev b = a
  | a, x :: xs, b => (m.next a = x ∧ m.prev x = a) ∧ Chain m x xs b

/-- The list with head `head` has the elements `xs`. -/
def Linked (m : Links N) (head : N) (xs : List N) : Prop :=
  Chain m head xs head ∧ (head :: xs).Nodup

def SelfLinked (m : Links N) (x : N) : Prop := m.next x = x ∧ m.prev x = x

theorem chain_append (m : Links N) (a b y : N) (xs ys : List N) :
    Chain m a (xs ++ y :: ys) b ↔ Chain m a xs y ∧ Chain m y ys b := by
  induction xs generalizing a with
  | nil => exact Iff.rfl
  | cons x xs ih => simp only [List.cons_append, Chain, ih, and_assoc]

/-- A chain only reads the links of its own nodes. -/
theorem Chain.frame {m m' : Links N} {a b : N} {xs : List N} (h : Chain m a xs b)
    (hnext : ∀ x ∈ a :: xs, m'.next x = m.next x) (hprev : ∀ x ∈ b :: xs, m'.prev x = m.prev x) :
    Chain m' a xs b := by
  induction xs generalizing a with
  | nil =>
    obtain ⟨h1, h2⟩ := h
    exact ⟨(hnext a (by simp)).trans h1, (hprev b (by simp)).trans h2⟩
  | cons x xs ih =>
    obtain ⟨⟨h1, h2⟩, hrest⟩ := h
    refine ⟨⟨(hnext a (by simp)).trans h1, (hprev x (by simp)).trans h2⟩, ih hrest ?_ ?_⟩
    · exact fun y hy => hnext y (List.mem_cons_of_mem a hy)
    · intro y hy
      refine hprev y ?_
      rcases List.mem_cons.mp hy with rfl | hy
      · simp
      · simp [hy]

theorem Chain.first_eq {m : Links N} {a b : N} {xs : List N} (h : Chain m a xs b) :
    m.next a = (xs ++ [b]).head (by simp) := by
  cases xs with
  | nil => exact h.1
  | cons x xs => exact h.1.1

/-- The node after `x`. -/
theorem Chain.next_eq {m : Links N} {a b x : N} {ys zs : List N}
    (h : Chain m a (ys ++ x :: zs) b) : m.next x = (zs ++ [b]).head (by simp) := by
  exact ((chain_append m a b x ys zs).mp h).2.first_eq

/-- The node before `x`. -/
theorem Chain.prev_eq {m : Links N} {a x : N} {ys : List N} (h : Chain m a ys x) :
    m.prev x = (a :: ys).getLast (by simp) := by
  induction ys generalizing a with
  | nil => exact h.2
  | cons y ys ih => exact ih h.2

/-- Two chains that met at `x`, joined past it. -/
theorem Chain.join {m m' : Links N} {a b x p q : N} {ys zs : List N} (h : Chain m a ys x)
    (h' : Chain m x zs b) (hp : (a :: ys).getLast (by simp) = p)
    (hq : (zs ++ [b]).head (by simp) = q) (hdup : (a :: (ys ++ x :: zs)).Nodup)
    (hb : b ∉ ys ++ x :: zs) (hpq : m'.next p = q ∧ m'.prev q = p)
    (hnext : ∀ z, z ≠ p → z ≠ x → m'.next z = m.next z)
    (hprev : ∀ z, z ≠ q → z ≠ x → m'.prev z = m.prev z) : Chain m' a (ys ++ zs) b := by
  induction ys generalizing a with
  | nil =>
    have hpa : a = p := hp
    subst hpa
    cases zs with
    | nil =>
      have hqb : b = q := hq
      subst hqb
      exact hpq
    | cons z zs =>
      have hqz : z = q := hq
      subst hqz
      simp only [List.nil_append, List.nodup_cons, List.mem_cons, not_or] at hdup hb
      refine ⟨hpq, h'.2.frame ?_ ?_⟩
      · intro w hw
        refine hnext w ?_ ?_
        · rintro rfl
          rcases List.mem_cons.mp hw with he | hw
          · exact hdup.1.2.1 he
          · exact hdup.1.2.2 hw
        · rintro rfl
          rcases List.mem_cons.mp hw with he | hw
          · exact hdup.2.1.1 he
          · exact hdup.2.1.2 hw
      · intro w hw
        refine hprev w ?_ ?_
        · rintro rfl
          rcases List.mem_cons.mp hw with he | hw
          · exact hb.2.1 he.symm
          · exact hdup.2.2.1 hw
        · rintro rfl
          rcases List.mem_cons.mp hw with he | hw
          · exact hb.1 he.symm
          · exact hdup.2.1.2 hw
  | cons y ys ih =>
    obtain ⟨⟨h1, h2⟩, hrest⟩ := h
    have hp' : (y :: ys).getLast (by simp) = p := hp
    have hpmem : p ∈ y :: ys := hp' ▸ List.getLast_mem _
    have hqmem : q = b ∨ q ∈ zs := by
      have hm : q ∈ zs ++ [b] := hq ▸ List.head_mem _
      simpa [or_comm] using hm
    rw [List.nodup_cons] at hdup
    simp only [List.cons_append, List.mem_cons, List.mem_append, not_or] at hdup hb
    have hdup' := List.nodup_cons.mp hdup.2
    have hap : a ≠ p := by
      rintro rfl
      rcases List.mem_cons.mp hpmem with he | hm
      · exact hdup.1.1 he
      · exact hdup.1.2.1 hm
    have hyq : y ≠ q := by
      rintro rfl
      rcases hqmem with he | hm
      · exact hb.1 he.symm
      · exact hdup'.1 (by simp [hm])
    have hyx : y ≠ x := fun he => hdup'.1 (by simp [he])
    refine ⟨⟨(hnext a hap hdup.1.2.2.1).trans h1, (hprev y hyq hyx).trans h2⟩, ?_⟩
    refine ih hrest hp' hdup.2 ?_
    simp only [List.mem_append, List.mem_cons, not_or]
    exact hb.2

variable [DecidableEq N]

/-- The four assignments of an insertion after `head`, in order. -/
def Links.insert (m : Links N) (head x : N) : Links N :=
  let m := { m with prev := Function.update m.prev x head }
  let m := { m with next := Function.update m.next x (m.next head) }
  let m := { m with prev := Function.update m.prev (m.next head) x }
  { m with next := Function.update m.next head x }

/-- The four assignments of a removal; they leave `x` linked to itself. -/
def Links.remove (m : Links N) (x : N) : Links N :=
  let m := { m with prev := Function.update m.prev (m.next x) (m.prev x) }
  let m := { m with next := Function.update m.next (m.prev x) (m.next x) }
  let m := { m with prev := Function.update m.prev x x }
  { m with next := Function.update m.next x x }

theorem Linked.insert {m : Links N} {head x : N} {xs : List N} (h : Linked m head xs)
    (hx : x ∉ head :: xs) : Linked (m.insert head x) head (x :: xs) := by
  obtain ⟨hchain, hnodup⟩ := h
  have hne : x ≠ head := fun he => hx (by simp [he])
  refine ⟨?_, ?_⟩
  · cases xs with
    | nil =>
      obtain ⟨h1, _⟩ := hchain
      simp [Chain, Links.insert, h1, hne, hne.symm]
    | cons y ys =>
      obtain ⟨⟨h1, _⟩, hrest⟩ := hchain
      have hxy : x ≠ y := fun he => hx (by simp [he])
      have hhy : head ≠ y := fun he => by simp [he] at hnodup
      have hhead : (m.insert head x).next head = x := by simp [Links.insert]
      have hxprev : (m.insert head x).prev x = head := by
        simp [Links.insert, h1, hne.symm, hxy]
      have hxnext : (m.insert head x).next x = y := by simp [Links.insert, h1, hne]
      have hyprev : (m.insert head x).prev y = x := by
        simp [Links.insert, h1, hne.symm]
      refine ⟨⟨hhead, hxprev⟩, ⟨hxnext, hyprev⟩, hrest.frame ?_ ?_⟩
      · intro z hz
        have hzx : z ≠ x := fun he => hx (List.mem_cons_of_mem head (he ▸ hz))
        have hzh : z ≠ head := fun he => (List.nodup_cons.mp hnodup).1 (he ▸ hz)
        simp [Links.insert, hzx, hzh]
      · intro z hz
        have hzx : z ≠ x := by
          rintro rfl
          rcases List.mem_cons.mp hz with rfl | hz
          · exact hne rfl
          · exact hx (by simp [hz])
        have hzy : z ≠ y := by
          rintro rfl
          rcases List.mem_cons.mp hz with he | hz
          · exact hhy he.symm
          · simp [hz] at hnodup
        simp [Links.insert, h1, hne.symm, hzx, hzy]
  · rw [List.nodup_cons, List.mem_cons, not_or]
    rw [List.nodup_cons] at hnodup
    exact ⟨⟨hne.symm, hnodup.1⟩, List.nodup_cons.mpr ⟨fun hm => hx (by simp [hm]), hnodup.2⟩⟩

/-- A removal joins the two neighbours, which are other nodes. -/
theorem Linked.remove_eq {m : Links N} {head x p q : N} {ys zs : List N}
    (h : Linked m head (ys ++ x :: zs)) (hp : (head :: ys).getLast (by simp) = p)
    (hq : (zs ++ [head]).head (by simp) = q) :
    p ≠ x ∧ q ≠ x ∧ m.remove x = ⟨Function.update (Function.update m.next p q) x x,
      Function.update (Function.update m.prev q p) x x⟩ := by
  obtain ⟨hchain, hdup⟩ := h
  obtain ⟨hleft, hright⟩ := (chain_append m head head x ys zs).mp hchain
  have hprev := hleft.prev_eq
  have hnext := hchain.next_eq
  rw [hp] at hprev
  rw [hq] at hnext
  have hpx : p ≠ x := by
    rintro rfl
    have hm : p ∈ head :: ys := hp ▸ List.getLast_mem _
    have hd : ((head :: ys) ++ p :: zs).Nodup := hdup
    exact (List.disjoint_of_nodup_append hd) hm (by simp)
  have hqx : q ≠ x := by
    rintro rfl
    have hm : q ∈ zs ++ [head] := hq ▸ List.head_mem _
    have hd := hdup
    rw [List.nodup_cons, List.nodup_append] at hd
    rcases List.mem_append.mp hm with hz | hh
    · exact (List.nodup_cons.mp hd.2.2.1).1 hz
    · exact hd.1 (by simp [List.mem_singleton.mp hh])
  exact ⟨hpx, hqx, by simp [Links.remove, hprev, hnext, hqx.symm]⟩

/-- **Removal** from a list, wherever the element is. -/
theorem Linked.remove {m : Links N} {head x : N} {ys zs : List N}
    (h : Linked m head (ys ++ x :: zs)) :
    Linked (m.remove x) head (ys ++ zs) ∧ SelfLinked (m.remove x) x := by
  obtain ⟨hpx, hqx, hm⟩ := h.remove_eq rfl rfl
  obtain ⟨hchain, hdup⟩ := h
  obtain ⟨hleft, hright⟩ := (chain_append m head head x ys zs).mp hchain
  refine ⟨⟨?_, ?_⟩, by simp [SelfLinked, hm]⟩
  · refine hleft.join hright rfl rfl hdup (List.nodup_cons.mp hdup).1 ?_ ?_ ?_
    · simp [hm, hpx, hqx]
    · intro z hzp hzx
      simp [hm, hzp, hzx]
    · intro z hzq hzx
      simp [hm, hzq, hzx]
  · have hsub : (head :: (ys ++ zs)).Sublist (head :: (ys ++ x :: zs)) :=
      (List.Sublist.append_left (List.sublist_cons_self x zs) ys).cons_cons head
    exact hdup.sublist hsub

/-- Nodes off the list keep their links. -/
theorem Linked.remove_other {m : Links N} {head x y : N} {ys zs : List N}
    (h : Linked m head (ys ++ x :: zs)) (hy : y ∉ head :: (ys ++ x :: zs)) :
    (m.remove x).next y = m.next y ∧ (m.remove x).prev y = m.prev y := by
  obtain ⟨_, _, hm⟩ := h.remove_eq rfl rfl
  simp only [List.mem_cons, List.mem_append, not_or] at hy
  have hyp : y ≠ (head :: ys).getLast (by simp) := by
    intro he
    have hmem := @List.getLast_mem N (head :: ys) (by simp)
    rw [← he] at hmem
    rcases List.mem_cons.mp hmem with hh | hh
    · exact hy.1 hh
    · exact hy.2.1 hh
  have hyq : y ≠ (zs ++ [head]).head (by simp) := by
    intro he
    have hmem := @List.head_mem N (zs ++ [head]) (by simp)
    rw [← he] at hmem
    rcases List.mem_append.mp hmem with hh | hh
    · exact hy.2.2.2 hh
    · exact hy.1 (List.mem_singleton.mp hh)
  simp [hm, hy.2.2.1, hyp, hyq]

theorem Linked.insert_other {m : Links N} {head x y : N} {xs : List N} (h : Linked m head xs)
    (hx : x ∉ head :: xs) (hy : y ∉ head :: xs) (hyx : y ≠ x) :
    (m.insert head x).next y = m.next y ∧ (m.insert head x).prev y = m.prev y := by
  simp only [List.mem_cons, not_or] at hx hy
  have hnext : m.next head ∈ head :: xs := by
    cases xs with
    | nil => simp [h.1.1]
    | cons z zs => simp [h.1.1.1]
  have hyn : y ≠ m.next head := by
    rintro rfl
    rcases List.mem_cons.mp hnext with hh | hh
    · exact hy.1 hh
    · exact hy.2 hh
  simp [Links.insert, hy.1, hyx, hyn, Ne.symm hx.1]

/-- Removing an element that is linked to itself changes nothing. -/
theorem SelfLinked.remove {m : Links N} {x : N} (h : SelfLinked m x) : m.remove x = m := by
  obtain ⟨hn, hp⟩ := h
  have hself : ∀ f : N → N, f x = x → Function.update f x x = f := fun f hf =>
    (congrArg (Function.update f x) hf.symm).trans (Function.update_eq_self x f)
  simp [Links.remove, hn, hp, hself]

/-! ## Traversal -/

/-- `while (x != head) { nx = x->next; body; x = nx; }`, at most `fuel` tests. -/
def walk {S : Type} (links : S → Links N) (head : N) (body : N → S → S) :
    Nat → N → S → Option S
  | 0, _, _ => none
  | fuel + 1, x, s =>
    if x = head then some s else walk links head body fuel ((links s).next x) (body x s)

/-- **Traversal rule.** A body that leaves the links alone or removes the node it
is at visits every node once, in order, and the loop ends. -/
theorem walk_eq {S : Type} {links : S → Links N} {head : N} {body : N → S → S} {zs : List N}
    (hbody : ∀ s x, links (body x s) = links s ∨ links (body x s) = (links s).remove x)
    {s : S} {ys : List N} (h : Linked (links s) head (ys ++ zs)) {fuel : Nat}
    (hf : zs.length < fuel) :
    walk links head body fuel ((zs ++ [head]).head (by simp)) s =
      some (zs.foldl (fun s x => body x s) s) := by
  induction zs generalizing s ys fuel with
  | nil =>
    obtain ⟨f, rfl⟩ : ∃ f, fuel = f + 1 := ⟨fuel - 1, by omega⟩
    simp [walk]
  | cons z zs ih =>
    obtain ⟨f, rfl⟩ : ∃ f, fuel = f + 1 := ⟨fuel - 1, by omega⟩
    have hz : z ≠ head := by
      rintro rfl
      exact (List.nodup_cons.mp h.2).1 (by simp)
    have hnext := h.1.next_eq
    rw [List.length_cons] at hf
    have hlink : ∃ ys', Linked (links (body z s)) head (ys' ++ zs) := by
      rcases hbody s z with hl | hl
      · exact ⟨ys ++ [z], by rw [hl, List.append_assoc]; exact h⟩
      · exact ⟨ys, by rw [hl]; exact h.remove.1⟩
    obtain ⟨ys', hys⟩ := hlink
    have hfuel : zs.length < f := by omega
    have hrest := ih hys hfuel
    show walk links head body (f + 1) z s = _
    rw [walk, if_neg hz, hnext, hrest]
    rfl

end

end FpgaLabs.Sync
