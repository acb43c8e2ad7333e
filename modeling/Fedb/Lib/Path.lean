import Mathlib

/-! # Paths through a successor function

A heap of linked nodes read at one link: `next p` is the node after `p`, and
`none` ends the list. `IsPath next q ps` says that following `next` from `q`
visits the nodes `ps` in order and then stops; `walk` follows the links for
at most `n` nodes, as a loop with fuel does. The lemmas are the ones a proof
of pointer surgery on such a heap needs:

* with enough fuel the walk is the path (`IsPath.walk_eq`), and the path from
  a pointer is unique (`IsPath.unique`);
* what follows a node on a path is the path from it (`IsPath.of_append`,
  `IsPath.next_eq`, `IsPath.after_last`);
* a write to nodes off the path keeps it (`IsPath.congr`), and a write that
  redirects the link of a node on the path replaces what follows that node
  and nothing before it (`IsPath.redirect`);
* on a path through distinct nodes, the three writes of list surgery: a new
  node linked in after a node (`IsPath.insertAfter`), the node after a node
  unlinked (`IsPath.unlinkAfter`), and the path cut after a node
  (`IsPath.cutAfter`);
* distinct nodes of a heap of `n` cells are at most `n` (`length_le_of_nodup`).
-/

namespace Path

variable {ι : Type*}

section Defs

variable (next : ι → Option ι)

/-- Following `next` from `q` visits `ps` and then reaches `none`. -/
inductive IsPath : Option ι → List ι → Prop
  | none : IsPath none []
  | cons {p : ι} {ps : List ι} : IsPath (next p) ps → IsPath (some p) (p :: ps)

/-- The first `n` nodes from `q` on. -/
def walk : Nat → Option ι → List ι
  | 0, _ => []
  | _ + 1, none => []
  | n + 1, some p => p :: walk n (next p)

end Defs

variable {next next' : ι → Option ι}

/-- A path starts at the pointer it is followed from. -/
theorem IsPath.head?_eq {q : Option ι} {ps : List ι} (h : IsPath next q ps) : q = ps.head? := by
  cases h <;> rfl

theorem IsPath.walk_eq {q : Option ι} {ps : List ι} (h : IsPath next q ps) :
    ∀ {n : Nat}, ps.length ≤ n → walk next n q = ps := by
  induction h with
  | none => intro n _; cases n <;> rfl
  | cons _ ih =>
    intro n hn
    cases n with
    | zero => simp at hn
    | succ n =>
      rw [walk, ih (by simpa using hn)]

theorem IsPath.unique {q : Option ι} {ps ps' : List ι} (h : IsPath next q ps)
    (h' : IsPath next q ps') : ps = ps' := by
  induction h generalizing ps' with
  | none => cases h'; rfl
  | cons _ ih =>
    cases h' with
    | cons h' => rw [ih h']

/-- A path only reads the links of its own nodes. -/
theorem IsPath.congr {q : Option ι} {ps : List ι} (h : IsPath next q ps)
    (heq : ∀ p ∈ ps, next' p = next p) : IsPath next' q ps := by
  induction h with
  | none => exact .none
  | @cons p ps _ ih =>
    refine .cons ?_
    rw [heq p List.mem_cons_self]
    exact ih fun x hx => heq x (List.mem_cons_of_mem _ hx)

/-- What follows a node of a path is the path from that node. -/
theorem IsPath.of_append {q : Option ι} {p : ι} :
    ∀ {xs ys : List ι}, IsPath next q (xs ++ p :: ys) → IsPath next (some p) (p :: ys)
  | [], _, h => by
    rw [List.nil_append] at h
    cases h with
    | cons h => exact .cons h
  | x :: xs, _, h => by
    rw [List.cons_append] at h
    cases h with
    | cons h => exact h.of_append

theorem IsPath.next_eq {p : ι} {ys : List ι} (h : IsPath next (some p) (p :: ys)) :
    next p = ys.head? := by
  cases h with
  | cons h => exact h.head?_eq

/-- Past the last node of a part of a path from `h0`, the path goes on with
the rest (from `h0` itself where the part is empty). -/
theorem IsPath.after_last {h0 : ι} :
    ∀ {T D : List ι}, IsPath next (some h0) (h0 :: (T ++ D)) → IsPath next (next (T.getLast?.getD h0)) D
  | [], _, h => by
    cases h with
    | cons h => exact h
  | t :: T, _, h => by
    cases h with
    | cons h =>
      have ht : next h0 = some t := h.head?_eq
      rw [ht, List.cons_append] at h
      rw [List.getLast?_cons, Option.getD_some]
      exact h.after_last

/-- Redirecting the link of `p` keeps the nodes before it and follows the new
link after it. The nodes before `p` must keep their links, and `p` must not
be among them, or the path would meet the new link earlier. -/
theorem IsPath.redirect {q : Option ι} {p : ι} {ys zs : List ι} :
    ∀ {xs : List ι}, IsPath next q (xs ++ p :: ys) → p ∉ xs →
      (∀ x ∈ xs, next' x = next x) → IsPath next' (next' p) zs → IsPath next' q (xs ++ p :: zs)
  | [], h, _, _, hr => by
    rw [List.nil_append] at h ⊢
    cases h with
    | cons _ => exact .cons hr
  | x :: xs, h, hp, hxs, hr => by
    rw [List.cons_append] at h ⊢
    cases h with
    | cons h =>
      refine .cons ?_
      rw [hxs x List.mem_cons_self]
      exact h.redirect (fun hm => hp (List.mem_cons_of_mem _ hm))
        (fun y hy => hxs y (List.mem_cons_of_mem _ hy)) hr

/-- From a node `x` of the part of a path from `h0` that passes a test, the
path goes on through the rest of that part into the rest of the path: the
part seen from `x` ends where the part seen from `h0` ends. -/
theorem IsPath.exists_of_mem_takeWhile {h0 x : ι} {C : List ι} {A : ι → Bool}
    (h : IsPath next (some h0) (h0 :: C)) (hx : x ∈ h0 :: C.takeWhile A) :
    ∃ zs, IsPath next (some x) (x :: zs) ∧
      (zs.takeWhile A).getLast?.getD x = (C.takeWhile A).getLast?.getD h0 ∧
      (zs.takeWhile A).length ≤ (C.takeWhile A).length := by
  obtain ⟨ys, ws, hsplit⟩ := List.append_of_mem hx
  -- what follows `x` in the part is a suffix of the part, so it passes the test
  have hsuf : ws <:+ C.takeWhile A := by
    have h1 : ws <:+ h0 :: C.takeWhile A := by
      rw [hsplit]
      exact (List.suffix_cons x ws).trans (List.suffix_append ys (x :: ws))
    rcases List.suffix_cons_iff.1 h1 with heq | h2
    · have hlen := congrArg List.length hsplit
      rw [← heq] at hlen
      simp at hlen
      omega
    · exact h2
  have hws : ∀ a ∈ ws, A a = true := fun a ha => List.mem_takeWhile_imp (hsuf.subset ha)
  -- the first node after the part fails the test
  have hdrop : (C.dropWhile A).takeWhile A = [] := by
    have hfirst := List.head?_dropWhile_not A C
    cases hd : C.dropWhile A with
    | nil => rfl
    | cons d rest =>
      rw [hd] at hfirst
      exact List.takeWhile_cons_of_neg (by simpa using hfirst)
  have htake : (ws ++ C.dropWhile A).takeWhile A = ws := by
    rw [List.takeWhile_append, List.takeWhile_eq_self_iff.2 hws, if_pos rfl, hdrop, List.append_nil]
  have hC : h0 :: C = ys ++ x :: (ws ++ C.dropWhile A) :=
    calc h0 :: C = (h0 :: C.takeWhile A) ++ C.dropWhile A := by
          rw [List.cons_append, List.takeWhile_append_dropWhile]
      _ = ys ++ x :: (ws ++ C.dropWhile A) := by rw [hsplit, List.append_assoc, List.cons_append]
  refine ⟨ws ++ C.dropWhile A, (hC ▸ h).of_append, ?_, ?_⟩
  · rw [htake]
    have hl := congrArg List.getLast? hsplit
    rw [List.getLast?_cons, List.getLast?_append, List.getLast?_cons] at hl
    simpa using hl.symm
  · rw [htake]
    exact hsuf.length_le

section Surgery

open Function

variable [DecidableEq ι]

/-- A node not yet on the path, linked in after `p`: `n->next = p->next;
p->next = n`. -/
theorem IsPath.insertAfter {q : Option ι} {xs ys : List ι} {p n : ι}
    (h : IsPath next q (xs ++ p :: ys)) (hnd : (xs ++ p :: ys).Nodup) (hn : n ∉ xs ++ p :: ys) :
    IsPath (update (update next n (next p)) p (some n)) q (xs ++ p :: n :: ys) := by
  have hp : p ∉ xs ++ ys := (List.nodup_cons.1 (List.nodup_middle.1 hnd)).1
  have hpn : p ≠ n := ne_of_mem_of_not_mem (List.mem_append_right _ List.mem_cons_self) hn
  -- every node but `p` and `n` keeps its link
  have hkeep : ∀ x, x ≠ p → x ≠ n → update (update next n (next p)) p (some n) x = next x :=
    fun x hxp hxn => by rw [update_of_ne hxp, update_of_ne hxn]
  refine h.redirect (fun hm => hp (List.mem_append_left _ hm))
    (fun x hx => hkeep x (ne_of_mem_of_not_mem (List.mem_append_left _ hx) hp)
      (ne_of_mem_of_not_mem (List.mem_append_left _ hx) hn)) ?_
  rw [update_self]
  refine .cons ?_
  rw [update_of_ne (Ne.symm hpn), update_self]
  have hys : IsPath next (next p) ys := by
    cases h.of_append with
    | cons h => exact h
  exact hys.congr fun y hy => hkeep y (ne_of_mem_of_not_mem (List.mem_append_right _ hy) hp)
    (ne_of_mem_of_not_mem (List.mem_append_right _ (List.mem_cons_of_mem _ hy)) hn)

/-- The node `r` after `p` unlinked: `p->next = r->next; r->next = NULL`. -/
theorem IsPath.unlinkAfter {q : Option ι} {xs ys : List ι} {p r : ι}
    (h : IsPath next q (xs ++ p :: r :: ys)) (hnd : (xs ++ p :: r :: ys).Nodup) :
    IsPath (update (update next p (next r)) r Option.none) q (xs ++ p :: ys) := by
  have h' : IsPath next q ((xs ++ [p]) ++ r :: ys) := by
    rwa [List.append_assoc, List.singleton_append]
  have hnd' : ((xs ++ [p]) ++ r :: ys).Nodup := by
    rwa [List.append_assoc, List.singleton_append]
  have hp : p ∉ xs ++ r :: ys := (List.nodup_cons.1 (List.nodup_middle.1 hnd)).1
  have hr : r ∉ (xs ++ [p]) ++ ys := (List.nodup_cons.1 (List.nodup_middle.1 hnd')).1
  have hr' : r ∉ xs ++ p :: ys := by
    rwa [List.append_assoc, List.singleton_append] at hr
  have hpr : p ≠ r := ne_of_mem_of_not_mem (List.mem_append_right _ List.mem_cons_self) hr'
  -- every node but `p` and `r` keeps its link
  have hkeep : ∀ x, x ≠ p → x ≠ r → update (update next p (next r)) r Option.none x = next x :=
    fun x hxp hxr => by rw [update_of_ne hxr, update_of_ne hxp]
  refine h.redirect (fun hm => hp (List.mem_append_left _ hm))
    (fun x hx => hkeep x (ne_of_mem_of_not_mem (List.mem_append_left _ hx) hp)
      (ne_of_mem_of_not_mem (List.mem_append_left _ hx) hr')) ?_
  rw [update_of_ne hpr, update_self]
  have hys : IsPath next (next r) ys := by
    cases h'.of_append with
    | cons h => exact h
  exact hys.congr fun y hy => hkeep y
    (ne_of_mem_of_not_mem (List.mem_append_right _ (List.mem_cons_of_mem _ hy)) hp)
    (ne_of_mem_of_not_mem (List.mem_append_right _ (List.mem_cons_of_mem _ hy)) hr')

/-- The path cut after `p`: `p->next = NULL`. -/
theorem IsPath.cutAfter {q : Option ι} {xs ys : List ι} {p : ι} (h : IsPath next q (xs ++ p :: ys))
    (hp : p ∉ xs) : IsPath (update next p Option.none) q (xs ++ [p]) := by
  refine h.redirect hp (fun x hx => update_of_ne (ne_of_mem_of_not_mem hx hp) _ _) ?_
  rw [update_self]
  exact .none

end Surgery

/-- Distinct cells of a heap of `n` cells are at most `n`. -/
theorem length_le_of_nodup {xs : List Nat} {n : Nat} (hnd : xs.Nodup) (hlt : ∀ x ∈ xs, x < n) :
    xs.length ≤ n := by
  rw [← List.toFinset_card_of_nodup hnd]
  calc xs.toFinset.card ≤ (Finset.range n).card :=
        Finset.card_le_card fun x hx => Finset.mem_range.2 (hlt x (List.mem_toFinset.1 hx))
    _ = n := Finset.card_range n

end Path
