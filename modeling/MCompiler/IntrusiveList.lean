/-
# Intrusive lists (`list.c`)

A list is a ring of nodes through a head, every node with a pointer to the node before it
and to the one after it.  The heap is the two pointers of every node; the operations write
them one after the other, in the order of the source, and read them again where the source
does.

* `listRun_sequences` : over any number of lists in one heap, every run of `list_add`,
  `list_addAfter` and `list_deattach` does to the sequences what the names say, keeps every
  list linked in both directions, and `list_empty` tells the empty ones.
-/
import Mathlib.Data.List.Chain
import Mathlib.Data.List.Nodup
import Mathlib.Data.Set.Insert

/-! ## The operations -/

/-- The nodes of the heap: `prev` and `next` of `struct list_head`. -/
@[ext]
structure ListHeap where
  prev : ℕ → ℕ
  next : ℕ → ℕ

namespace ListHeap

/-- `node->next = m`. -/
def setNext (h : ListHeap) (node m : ℕ) : ListHeap :=
  { h with next := Function.update h.next node m }

/-- `node->prev = m`. -/
def setPrev (h : ListHeap) (node m : ℕ) : ListHeap :=
  { h with prev := Function.update h.prev node m }

@[simp] theorem setNext_next (h : ListHeap) (node m : ℕ) :
    (h.setNext node m).next = Function.update h.next node m := rfl

@[simp] theorem setNext_prev (h : ListHeap) (node m : ℕ) :
    (h.setNext node m).prev = h.prev := rfl

@[simp] theorem setPrev_next (h : ListHeap) (node m : ℕ) :
    (h.setPrev node m).next = h.next := rfl

@[simp] theorem setPrev_prev (h : ListHeap) (node m : ℕ) :
    (h.setPrev node m).prev = Function.update h.prev node m := rfl

end ListHeap

/-- `list_empty`. -/
def listEmpty (h : ListHeap) (lst : ℕ) : Bool :=
  lst == h.next lst

/-- `list_add`: adds the element at the end. -/
def listAdd (h : ListHeap) (lst e : ℕ) : ListHeap :=
  let h := h.setNext e lst
  let h := h.setPrev e (h.prev lst)
  let h := h.setNext (h.prev lst) e
  h.setPrev lst e

/-- `list_addAfter`. -/
def listAddAfter (h : ListHeap) (b e : ℕ) : ListHeap :=
  let h := h.setNext e (h.next b)
  let h := h.setPrev e b
  let h := h.setPrev (h.next b) e
  h.setNext b e

/-- `list_deattach`. -/
def listDeattach (h : ListHeap) (elem : ℕ) : ListHeap :=
  let h := h.setNext (h.prev elem) (h.next elem)
  h.setPrev (h.next elem) (h.prev elem)

/-- The loop of `LIST_FOR_EACH` from the node `c` on, and the nodes it visits. -/
def listForEachFrom (h : ListHeap) (l : ℕ) : ℕ → ℕ → Option (List ℕ)
  | 0, _ => none
  | fuel + 1, c =>
      if c = l then some [] else (listForEachFrom h l fuel (h.next c)).map (c :: ·)

/-- `LIST_FOR_EACH`. -/
def listForEach (h : ListHeap) (fuel l : ℕ) : Option (List ℕ) :=
  listForEachFrom h l fuel (h.next l)

/-! ## Rings -/

/-- The two pointers between neighbours agree. -/
def Neighbours (h : ListHeap) (a b : ℕ) : Prop :=
  h.next a = b ∧ h.prev b = a

/-- Once around the list with the head `a` and the members `l`, back to the head. -/
def ring (a : ℕ) (l : List ℕ) : List ℕ :=
  a :: (l ++ [a])

theorem ring_eq (a : ℕ) (l : List ℕ) : ring a l = (a :: l) ++ [a] := rfl

theorem mem_ring {a b : ℕ} {l : List ℕ} : b ∈ ring a l ↔ b ∈ a :: l := by
  simp only [ring, List.mem_cons, List.mem_append, List.not_mem_nil, or_false]
  tauto

/-- A chain stays one while its pointers do: `next` is read at all nodes but the last and
`prev` at all but the first. -/
theorem chain_frame {h h' : ListHeap} :
    ∀ {c : List ℕ}, c.IsChain (Neighbours h) → (∀ b ∈ c.dropLast, h'.next b = h.next b) →
      (∀ b ∈ c.tail, h'.prev b = h.prev b) → c.IsChain (Neighbours h')
  | [], _, _, _ => .nil
  | [a], _, _, _ => .singleton a
  | a :: b :: c, hc, hnext, hprev => by
      rw [List.isChain_cons_cons] at hc ⊢
      obtain ⟨⟨hab, hba⟩, hc⟩ := hc
      constructor
      · constructor
        · rw [hnext a (by simp), hab]
        · rw [hprev b (by simp), hba]
      · apply chain_frame hc
        · intro d hd
          exact hnext d (by simp [hd])
        · intro d hd
          exact hprev d (by simpa using Or.inr hd)

/-- The node `e` put between `x` and `y`. -/
def insertBetween (h : ListHeap) (x y e : ℕ) : ListHeap where
  prev := Function.update (Function.update h.prev e x) y e
  next := Function.update (Function.update h.next e y) x e

/-- The nodes `x` and `y` made neighbours. -/
def join (h : ListHeap) (x y : ℕ) : ListHeap where
  prev := Function.update h.prev y x
  next := Function.update h.next x y

theorem listAdd_eq {h : ListHeap} {lst e : ℕ} (he : e ≠ lst) :
    listAdd h lst e = insertBetween h (h.prev lst) lst e := by
  simp [listAdd, insertBetween, ListHeap.ext_iff, Function.update_of_ne he.symm]

theorem listAddAfter_eq {h : ListHeap} {b e : ℕ} (he : e ≠ b) :
    listAddAfter h b e = insertBetween h b (h.next b) e := by
  simp [listAddAfter, insertBetween, ListHeap.ext_iff, Function.update_of_ne he.symm]

/-- The second write reads `next` of the node again, after the first one. -/
theorem listDeattach_eq {h : ListHeap} {e : ℕ} (he : h.prev e ≠ e) :
    listDeattach h e = join h (h.prev e) (h.next e) := by
  simp [listDeattach, join, ListHeap.ext_iff, Function.update_of_ne he.symm]

/-- Both parts of a chain stay chains if only the pointers over the cut between `x` and `y`
change.  A ring meets its head twice, so only without its last or its first node is it
without repetitions. -/
theorem chain_cut {h g : ListHeap} {p q : List ℕ} {x y : ℕ}
    (hl : (p ++ [x]).IsChain (Neighbours h)) (hr : (y :: q).IsChain (Neighbours h))
    (hd : (p ++ x :: y :: q).dropLast.Nodup) (ht : (p ++ x :: y :: q).tail.Nodup)
    (hnext : ∀ b ∈ p ++ x :: y :: q, b ≠ x → g.next b = h.next b)
    (hprev : ∀ b ∈ p ++ x :: y :: q, b ≠ y → g.prev b = h.prev b) :
    (p ++ [x]).IsChain (Neighbours g) ∧ (y :: q).IsChain (Neighbours g) := by
  have hdrop : (p ++ x :: y :: q).dropLast = p ++ x :: (y :: q).dropLast := by
    rw [List.dropLast_append_of_ne_nil (by simp)]
    rfl
  have htail : (p ++ x :: y :: q).tail = (p ++ [x]).tail ++ y :: q := by
    rw [← List.tail_append_of_ne_nil (by simp)]
    simp
  rw [hdrop, List.nodup_append, List.nodup_cons] at hd
  rw [htail, List.nodup_append, List.nodup_cons] at ht
  obtain ⟨-, ⟨hx, -⟩, hpx⟩ := hd
  obtain ⟨-, ⟨hy, -⟩, hpy⟩ := ht
  constructor
  · -- up to `x`: `next` is read before `x` only
    apply chain_frame hl
    · intro b hb
      rw [List.dropLast_concat] at hb
      exact hnext b (by simp [hb]) (hpx b hb x (by simp))
    · intro b hb
      have hmem : b ∈ p ++ [x] := List.mem_of_mem_tail hb
      exact hprev b (by simp at hmem ⊢; tauto) (hpy b hb y (by simp))
  · -- from `y` on: `prev` is read after `y` only
    apply chain_frame hr
    · intro b hb
      have hmem : b ∈ y :: q := List.dropLast_subset _ hb
      exact hnext b (by simp at hmem ⊢; tauto) (fun hbx => hx (hbx ▸ hb))
    · intro b hb
      exact hprev b (by simp [show b ∈ q from hb]) (fun hby => hy (hby ▸ hb))

/-- A node put between two neighbours. -/
theorem chain_insert {h : ListHeap} {p q : List ℕ} {x y e : ℕ}
    (hc : (p ++ x :: y :: q).IsChain (Neighbours h)) (hd : (p ++ x :: y :: q).dropLast.Nodup)
    (ht : (p ++ x :: y :: q).tail.Nodup) (he : e ∉ p ++ x :: y :: q) :
    (p ++ x :: e :: y :: q).IsChain (Neighbours (insertBetween h x y e)) := by
  rw [List.isChain_append_cons_cons] at hc
  obtain ⟨hl, -, hr⟩ := hc
  have hcut := chain_cut (g := insertBetween h x y e) hl hr hd ht
    (fun b hb hbx => by
      have hbe : b ≠ e := fun h => he (h ▸ hb)
      simp [insertBetween, hbx, hbe])
    (fun b hb hby => by
      have hbe : b ≠ e := fun h => he (h ▸ hb)
      simp [insertBetween, hby, hbe])
  have hex : e ≠ x := fun h => he (by simp [h])
  have hey : e ≠ y := fun h => he (by simp [h])
  rw [List.isChain_append_cons_cons, List.isChain_cons_cons]
  refine ⟨hcut.1, ?_, ?_, hcut.2⟩
  · simp [Neighbours, insertBetween, hey]
  · simp [Neighbours, insertBetween, hex]

/-- A node taken out between its neighbours. -/
theorem chain_remove {h : ListHeap} {p q : List ℕ} {x y e : ℕ}
    (hc : (p ++ x :: e :: y :: q).IsChain (Neighbours h))
    (hd : (p ++ x :: y :: q).dropLast.Nodup) (ht : (p ++ x :: y :: q).tail.Nodup) :
    (p ++ x :: y :: q).IsChain (Neighbours (join h x y)) := by
  rw [List.isChain_append_cons_cons, List.isChain_cons_cons] at hc
  obtain ⟨hl, -, -, hr⟩ := hc
  have hcut := chain_cut (g := join h x y) hl hr hd ht
    (fun b _ hbx => by simp [join, hbx]) (fun b _ hby => by simp [join, hby])
  rw [List.isChain_append_cons_cons]
  refine ⟨hcut.1, ?_, hcut.2⟩
  simp [Neighbours, join]

/-! ## The operations on a ring -/

section Ring

variable {h : ListHeap} {a e : ℕ} {l : List ℕ}

theorem dropLast_ring : (ring a l).dropLast = a :: l := by
  rw [ring_eq, List.dropLast_concat]

theorem tail_ring : (ring a l).tail = l ++ [a] := rfl

theorem nodup_tail_ring (hn : (a :: l).Nodup) : (ring a l).tail.Nodup := by
  rw [tail_ring]
  exact (List.perm_append_singleton a l).nodup_iff.2 hn

/-- The last node before the head, and the nodes before it. -/
theorem exists_last (a : ℕ) (l : List ℕ) : ∃ p x, a :: l = p ++ [x] :=
  ⟨_, _, (List.dropLast_append_getLast (List.cons_ne_nil a l)).symm⟩

/-- The first node of the rest of a ring, and the nodes after it. -/
theorem exists_first (s : List ℕ) (a : ℕ) : ∃ y q, s ++ [a] = y :: q :=
  List.exists_cons_of_ne_nil (by simp)

theorem ring_add (hc : (ring a l).IsChain (Neighbours h)) (hn : (a :: l).Nodup)
    (he : e ∉ a :: l) :
    (ring a (l ++ [e])).IsChain (Neighbours (listAdd h a e)) := by
  obtain ⟨p, x, hx⟩ := exists_last a l
  have hring : ring a l = p ++ x :: a :: [] := by
    rw [ring_eq, hx]
    simp
  have hnew : ring a (l ++ [e]) = p ++ x :: e :: a :: [] := by
    have : ring a (l ++ [e]) = (a :: l) ++ [e, a] := by simp [ring]
    rw [this, hx]
    simp
  have hprev : h.prev a = x := by
    rw [hring, List.isChain_append_cons_cons] at hc
    exact hc.2.1.2
  rw [listAdd_eq (fun h => he (by simp [h])), hprev, hnew]
  apply chain_insert (hring ▸ hc)
  · rw [← hring, dropLast_ring]
    exact hn
  · rw [← hring]
    exact nodup_tail_ring hn
  · rw [← hring, mem_ring]
    exact he

theorem ring_addAfter {p s l' : List ℕ} {b : ℕ} (hc : (ring a l).IsChain (Neighbours h))
    (hn : (a :: l).Nodup) (he : e ∉ a :: l) (hl : a :: l = p ++ b :: s)
    (hl' : a :: l' = p ++ b :: e :: s) :
    (ring a l').IsChain (Neighbours (listAddAfter h b e)) := by
  obtain ⟨y, q, hy⟩ := exists_first s a
  have hring : ring a l = p ++ b :: y :: q := by
    rw [ring_eq, hl, ← hy]
    simp
  have hnew : ring a l' = p ++ b :: e :: y :: q := by
    rw [ring_eq, hl', ← hy]
    simp
  have hnext : h.next b = y := by
    rw [hring, List.isChain_append_cons_cons] at hc
    exact hc.2.1.1
  rw [listAddAfter_eq (fun h => he (by simp [hl, h])), hnext, hnew]
  apply chain_insert (hring ▸ hc)
  · rw [← hring, dropLast_ring]
    exact hn
  · rw [← hring]
    exact nodup_tail_ring hn
  · rw [← hring, mem_ring]
    exact he

/-- A member is not the node before itself. -/
theorem prev_ne {p s : List ℕ} (hc : (ring a (p ++ e :: s)).IsChain (Neighbours h))
    (hn : (a :: (p ++ e :: s)).Nodup) : h.prev e ≠ e := by
  obtain ⟨r, x, hx⟩ := exists_last a p
  have hring : ring a (p ++ e :: s) = r ++ x :: e :: (s ++ [a]) := by
    have : ring a (p ++ e :: s) = (a :: p) ++ e :: (s ++ [a]) := by simp [ring]
    rw [this, hx]
    simp
  rw [hring, List.isChain_append_cons_cons] at hc
  have hmem : x ∈ a :: p := by simp [hx]
  rw [← List.cons_append, List.nodup_append] at hn
  rw [hc.2.1.2]
  exact hn.2.2 x hmem e (by simp)

theorem ring_deattach {p s : List ℕ} (hc : (ring a (p ++ e :: s)).IsChain (Neighbours h))
    (hn : (a :: (p ++ e :: s)).Nodup) :
    (ring a (p ++ s)).IsChain (Neighbours (listDeattach h e)) := by
  obtain ⟨r, x, hx⟩ := exists_last a p
  obtain ⟨y, q, hy⟩ := exists_first s a
  have hring : ring a (p ++ e :: s) = r ++ x :: e :: y :: q := by
    have : ring a (p ++ e :: s) = (a :: p) ++ e :: (s ++ [a]) := by simp [ring]
    rw [this, hx, hy]
    simp
  have hnew : ring a (p ++ s) = r ++ x :: y :: q := by
    have : ring a (p ++ s) = (a :: p) ++ (s ++ [a]) := by simp [ring]
    rw [this, hx, hy]
    simp
  have hpe := prev_ne hc hn
  rw [hring] at hc
  obtain ⟨-, ⟨-, hprev⟩, hrest⟩ := List.isChain_append_cons_cons.1 hc
  have hnext : h.next e = y := (List.isChain_cons_cons.1 hrest).1.1
  rw [listDeattach_eq hpe, hprev, hnext, hnew]
  have hn' : (a :: (p ++ s)).Nodup := by
    exact List.Nodup.sublist (by simp) hn
  apply chain_remove hc
  · rw [← hnew, dropLast_ring]
    exact hn'
  · rw [← hnew]
    exact nodup_tail_ring hn'

/-- The node after a node of a ring is one of the ring. -/
theorem next_mem (hc : (ring a l).IsChain (Neighbours h)) {b : ℕ} (hb : b ∈ a :: l) :
    h.next b ∈ a :: l := by
  obtain ⟨p, s, hl⟩ := List.append_of_mem hb
  obtain ⟨y, q, hy⟩ := exists_first s a
  have hring : ring a l = p ++ b :: y :: q := by
    rw [ring_eq, hl, ← hy]
    simp
  rw [← mem_ring, hring]
  rw [hring, List.isChain_append_cons_cons] at hc
  rw [hc.2.1.1]
  simp

/-- The node before a node of a ring is one of the ring. -/
theorem prev_mem (hc : (ring a l).IsChain (Neighbours h)) {b : ℕ} (hb : b ∈ a :: l) :
    h.prev b ∈ a :: l := by
  have hb' : b ∈ l ++ [a] := by
    simp at hb ⊢
    tauto
  obtain ⟨p, s, hl⟩ := List.append_of_mem hb'
  obtain ⟨r, x, hx⟩ := exists_last a p
  have hring : ring a l = r ++ x :: b :: s := by
    have : ring a l = (a :: p) ++ b :: s := by simp [ring, hl]
    rw [this, hx]
    simp
  rw [← mem_ring, hring]
  rw [hring, List.isChain_append_cons_cons] at hc
  rw [hc.2.1.2]
  simp

/-- A ring that no node of is written to. -/
theorem ring_frame {g : ListHeap} (hc : (ring a l).IsChain (Neighbours h))
    (hnext : ∀ b ∈ a :: l, g.next b = h.next b) (hprev : ∀ b ∈ a :: l, g.prev b = h.prev b) :
    (ring a l).IsChain (Neighbours g) := by
  apply chain_frame hc
  · intro b hb
    exact hnext b (mem_ring.1 (List.dropLast_subset _ hb))
  · intro b hb
    exact hprev b (mem_ring.1 (List.mem_of_mem_tail hb))

end Ring

/-! ## Several lists in one heap -/

/-- The heap holds a list for every head: `seq a` are the members of the list of `a`.  The
nodes of different lists are different. -/
structure ListsWellFormed (h : ListHeap) (heads : Set ℕ) (seq : ℕ → List ℕ) : Prop where
  linked : ∀ a ∈ heads, (ring a (seq a)).IsChain (Neighbours h)
  nodup : ∀ a ∈ heads, (a :: seq a).Nodup
  disjoint : ∀ a ∈ heads, ∀ b ∈ heads, a ≠ b → (a :: seq a).Disjoint (b :: seq b)

/-- A call of one of the three operations. -/
inductive ListOp where
  | add (lst e : ℕ)
  | addAfter (b e : ℕ)
  | deattach (e : ℕ)

/-- The call on the heap. -/
def ListOp.run (h : ListHeap) : ListOp → ListHeap
  | .add lst e => listAdd h lst e
  | .addAfter b e => listAddAfter h b e
  | .deattach e => listDeattach h e

/-- The node is in no list. -/
def FreeNode (heads : Set ℕ) (seq : ℕ → List ℕ) (e : ℕ) : Prop :=
  ∀ a ∈ heads, e ∉ a :: seq a

/-- What a caller keeps to: a node added is in no list, a node it is put after, head or
member, is in one, and only members are taken out. -/
def ListOp.Allowed (heads : Set ℕ) (seq : ℕ → List ℕ) : ListOp → Prop
  | .add lst e => lst ∈ heads ∧ FreeNode heads seq e
  | .addAfter b e => (∃ a ∈ heads, b ∈ a :: seq a) ∧ FreeNode heads seq e
  | .deattach e => ∃ a ∈ heads, e ∈ seq a

/-- `e` right after the first `b` of the list. -/
def insertAfter (b e : ℕ) : List ℕ → List ℕ
  | [] => []
  | c :: l => if c = b then c :: e :: l else c :: insertAfter b e l

/-- The call on the sequence of a list: the members of the list with the head `a`. -/
def ListOp.onSeq (a : ℕ) (l : List ℕ) : ListOp → List ℕ
  | .add lst e => if a = lst then l ++ [e] else l
  | .addAfter b e => (insertAfter b e (a :: l)).tail
  | .deattach e => l.erase e

/-- The call on all sequences. -/
def ListOp.onSeqs (seq : ℕ → List ℕ) (op : ListOp) : ℕ → List ℕ :=
  fun a => op.onSeq a (seq a)

/-- One list changes, from `l` to `l'` as `R` says of its head, and no other list. -/
def OneChanges (heads : Set ℕ) (seq seq' : ℕ → List ℕ)
    (R : ℕ → List ℕ → List ℕ → Prop) : Prop :=
  ∃ a ∈ heads, R a (seq a) (seq' a) ∧ ∀ c ∈ heads, c ≠ a → seq' c = seq c

/-- What a call does: it appends the node, inserts it right after another, or removes it,
in one list. -/
def ListOp.Effect (heads : Set ℕ) (seq seq' : ℕ → List ℕ) : ListOp → Prop
  | .add lst e => OneChanges heads seq seq' fun a l l' => a = lst ∧ l' = l ++ [e]
  | .addAfter b e => OneChanges heads seq seq' fun a l l' =>
      ∃ p s, a :: l = p ++ b :: s ∧ a :: l' = p ++ b :: e :: s
  | .deattach e => OneChanges heads seq seq' fun _ l l' => ∃ p s, l = p ++ e :: s ∧ l' = p ++ s

/-- The state after the calls: the heap and the sequences. -/
def runOps (h : ListHeap) (ops : List ListOp) : ListHeap :=
  ops.foldl ListOp.run h

@[inherit_doc runOps]
def runSeqs (seq : ℕ → List ℕ) (ops : List ListOp) : ℕ → List ℕ :=
  ops.foldl ListOp.onSeqs seq

/-- Every call of the run is allowed when it is made. -/
def AllowedRun (heads : Set ℕ) : (ℕ → List ℕ) → List ListOp → Prop
  | _, [] => True
  | seq, op :: ops => op.Allowed heads seq ∧ AllowedRun heads (op.onSeqs seq) ops

/-! ## One call -/

theorem insertAfter_of_notMem {b e : ℕ} {l : List ℕ} (hb : b ∉ l) : insertAfter b e l = l := by
  induction l with
  | nil => rfl
  | cons c l ih =>
    simp only [List.mem_cons, not_or] at hb
    rw [insertAfter, if_neg (Ne.symm hb.1), ih hb.2]

theorem insertAfter_of_mem {b e : ℕ} {l : List ℕ} (hb : b ∈ l) :
    ∃ p s, l = p ++ b :: s ∧ insertAfter b e l = p ++ b :: e :: s := by
  induction l with
  | nil => simp at hb
  | cons c l ih =>
    by_cases hc : c = b
    · exact ⟨[], l, by simp [hc], by simp [insertAfter, hc]⟩
    · obtain ⟨p, s, hl, hins⟩ := ih ((List.mem_cons.1 hb).resolve_left (Ne.symm hc))
      exact ⟨c :: p, s, by simp [hl], by simp [insertAfter, hc, hins]⟩

/-- The head stays the first. -/
theorem cons_tail_insertAfter (b e a : ℕ) (l : List ℕ) :
    a :: (insertAfter b e (a :: l)).tail = insertAfter b e (a :: l) := by
  by_cases hab : a = b <;> simp [insertAfter, hab]

section Step

variable {h : ListHeap} {heads : Set ℕ} {seq : ℕ → List ℕ}

/-- A node of one list is in no other list. -/
theorem ListsWellFormed.notMem (hwf : ListsWellFormed h heads seq) {a c b : ℕ}
    (ha : a ∈ heads) (hc : c ∈ heads) (hca : c ≠ a) (hb : b ∈ a :: seq a) : b ∉ c :: seq c :=
  fun h => hwf.disjoint c hc a ha hca h hb

/-- One list of the heap replaced: the pointers of the other lists stay, and a new member
was in no other list. -/
theorem ListsWellFormed.change (hwf : ListsWellFormed h heads seq) {g : ListHeap}
    {seq' : ℕ → List ℕ} {a e : ℕ} (ha : a ∈ heads)
    (hsame : ∀ c ∈ heads, c ≠ a → seq' c = seq c)
    (hlinked : (ring a (seq' a)).IsChain (Neighbours g)) (hnodup : (a :: seq' a).Nodup)
    (hmem : ∀ b ∈ seq' a, b ∈ a :: seq a ∨ b = e)
    (hfree : ∀ c ∈ heads, c ≠ a → e ∉ c :: seq c)
    (hframe : ∀ b, b ∉ a :: seq a → b ≠ e → g.next b = h.next b ∧ g.prev b = h.prev b) :
    ListsWellFormed g heads seq' := by
  have hother : ∀ c ∈ heads, c ≠ a → (a :: seq' a).Disjoint (c :: seq' c) := by
    intro c hc hca b hb hbc
    rw [hsame c hc hca] at hbc
    rcases List.mem_cons.1 hb with rfl | hb
    · exact hwf.notMem ha hc hca (by simp) hbc
    · rcases hmem b hb with hb | rfl
      · exact hwf.notMem ha hc hca hb hbc
      · exact hfree c hc hca hbc
  constructor
  · intro c hc
    by_cases hca : c = a
    · rw [hca]
      exact hlinked
    · have hout : ∀ b ∈ c :: seq c, g.next b = h.next b ∧ g.prev b = h.prev b := by
        intro b hb
        apply hframe b
        · exact fun hba => hwf.notMem ha hc hca hba hb
        · exact fun hbe => hfree c hc hca (hbe ▸ hb)
      rw [hsame c hc hca]
      exact ring_frame (hwf.linked c hc) (fun b hb => (hout b hb).1) (fun b hb => (hout b hb).2)
  · intro c hc
    by_cases hca : c = a
    · rw [hca]
      exact hnodup
    · rw [hsame c hc hca]
      exact hwf.nodup c hc
  · intro c hc d hd hcd
    by_cases hca : c = a
    · rw [hca] at hcd ⊢
      exact hother d hd (Ne.symm hcd)
    · by_cases hda : d = a
      · rw [hda]
        exact fun b hb hb' => hother c hc hca hb' hb
      · rw [hsame c hc hca, hsame d hd hda]
        exact hwf.disjoint c hc d hd hcd

theorem ListsWellFormed.add (hwf : ListsWellFormed h heads seq) {lst e : ℕ}
    (hop : (ListOp.add lst e).Allowed heads seq) :
    ListsWellFormed ((ListOp.add lst e).run h) heads ((ListOp.add lst e).onSeqs seq) ∧
      (ListOp.add lst e).Effect heads seq ((ListOp.add lst e).onSeqs seq) := by
  obtain ⟨ha, hfree⟩ := hop
  have he := hfree lst ha
  have hseq : (ListOp.add lst e).onSeqs seq lst = seq lst ++ [e] := by
    simp [ListOp.onSeqs, ListOp.onSeq]
  have hsame : ∀ c ∈ heads, c ≠ lst → (ListOp.add lst e).onSeqs seq c = seq c := by
    intro c _ hc
    simp [ListOp.onSeqs, ListOp.onSeq, hc]
  refine ⟨?_, lst, ha, ⟨rfl, hseq⟩, hsame⟩
  have hprev := prev_mem (hwf.linked lst ha) (b := lst) (by simp)
  apply hwf.change (e := e) ha hsame
  · rw [hseq]
    exact ring_add (hwf.linked lst ha) (hwf.nodup lst ha) he
  · rw [hseq, ← List.cons_append]
    exact ((List.perm_append_singleton e _).nodup_iff).2 (List.nodup_cons.2 ⟨he, hwf.nodup lst ha⟩)
  · intro b hb
    rw [hseq] at hb
    simp at hb ⊢
    tauto
  · exact fun c hc _ => hfree c hc
  · intro b hb hbe
    have hbl : b ≠ lst := fun h => hb (by simp [h])
    have hbp : b ≠ h.prev lst := fun h => hb (h ▸ hprev)
    rw [ListOp.run, listAdd_eq (fun h => he (by simp [h]))]
    simp [insertBetween, hbe, hbl, hbp]

theorem ListsWellFormed.addAfter (hwf : ListsWellFormed h heads seq) {b e : ℕ}
    (hop : (ListOp.addAfter b e).Allowed heads seq) :
    ListsWellFormed ((ListOp.addAfter b e).run h) heads ((ListOp.addAfter b e).onSeqs seq) ∧
      (ListOp.addAfter b e).Effect heads seq ((ListOp.addAfter b e).onSeqs seq) := by
  obtain ⟨⟨a, ha, hb⟩, hfree⟩ := hop
  have he := hfree a ha
  obtain ⟨p, s, hl, hins⟩ := insertAfter_of_mem (e := e) hb
  have hseq : a :: (ListOp.addAfter b e).onSeqs seq a = p ++ b :: e :: s := by
    rw [← hins, ← cons_tail_insertAfter]
    rfl
  have hsame : ∀ c ∈ heads, c ≠ a → (ListOp.addAfter b e).onSeqs seq c = seq c := by
    intro c hc hca
    have hbc := hwf.notMem ha hc hca hb
    simp [ListOp.onSeqs, ListOp.onSeq, insertAfter_of_notMem hbc]
  refine ⟨?_, a, ha, ⟨p, s, hl, hseq⟩, hsame⟩
  have hnext := next_mem (hwf.linked a ha) hb
  have hperm : (p ++ b :: e :: s).Perm (e :: a :: seq a) := by
    rw [hl]
    have : p ++ b :: e :: s = (p ++ [b]) ++ e :: s := by simp
    rw [this]
    apply List.perm_middle.trans
    simp
  apply hwf.change (e := e) ha hsame
  · exact ring_addAfter (hwf.linked a ha) (hwf.nodup a ha) he hl hseq
  · rw [hseq, hperm.nodup_iff]
    exact List.nodup_cons.2 ⟨he, hwf.nodup a ha⟩
  · intro d hd
    have : d ∈ e :: a :: seq a := by
      rw [← hperm.mem_iff, ← hseq]
      exact List.mem_cons_of_mem _ hd
    simp at this ⊢
    tauto
  · exact fun c hc _ => hfree c hc
  · intro d hd hde
    have hdb : d ≠ b := fun h => hd (h ▸ hb)
    have hdn : d ≠ h.next b := fun h => hd (h ▸ hnext)
    rw [ListOp.run, listAddAfter_eq (fun heb : e = b => he (heb ▸ hb))]
    simp [insertBetween, hde, hdb, hdn]

theorem ListsWellFormed.deattach (hwf : ListsWellFormed h heads seq) {e : ℕ}
    (hop : (ListOp.deattach e).Allowed heads seq) :
    ListsWellFormed ((ListOp.deattach e).run h) heads ((ListOp.deattach e).onSeqs seq) ∧
      (ListOp.deattach e).Effect heads seq ((ListOp.deattach e).onSeqs seq) := by
  obtain ⟨a, ha, he⟩ := hop
  obtain ⟨p, s, hep, hl, herase⟩ := List.exists_erase_eq he
  have hseq : (ListOp.deattach e).onSeqs seq a = p ++ s := herase
  have hmem : e ∈ a :: seq a := List.mem_cons_of_mem _ he
  have hsame : ∀ c ∈ heads, c ≠ a → (ListOp.deattach e).onSeqs seq c = seq c := by
    intro c hc hca
    have hec := hwf.notMem ha hc hca hmem
    exact List.erase_of_not_mem (fun h => hec (List.mem_cons_of_mem _ h))
  refine ⟨?_, a, ha, ⟨p, s, hl, hseq⟩, hsame⟩
  have hnext := next_mem (hwf.linked a ha) hmem
  have hprev := prev_mem (hwf.linked a ha) hmem
  have hlinked := hl ▸ hwf.linked a ha
  have hnodup := hl ▸ hwf.nodup a ha
  apply hwf.change (e := e) ha hsame
  · rw [hseq]
    exact ring_deattach hlinked hnodup
  · rw [hseq]
    exact List.Nodup.sublist (by simp) hnodup
  · intro b hb
    rw [hseq] at hb
    rw [hl]
    simp at hb ⊢
    tauto
  · exact fun c hc hca => hwf.notMem ha hc hca hmem
  · intro b hb hbe
    have hbn : b ≠ h.next e := fun h => hb (h ▸ hnext)
    have hbp : b ≠ h.prev e := fun h => hb (h ▸ hprev)
    have hpe : h.prev e ≠ e := prev_ne hlinked hnodup
    rw [ListOp.run, listDeattach_eq hpe]
    simp [join, hbn, hbp]

/-- One call does to the sequences what it says, and the lists stay well formed. -/
theorem ListsWellFormed.step (hwf : ListsWellFormed h heads seq) {op : ListOp}
    (hop : op.Allowed heads seq) :
    ListsWellFormed (op.run h) heads (op.onSeqs seq) ∧
      op.Effect heads seq (op.onSeqs seq) := by
  cases op with
  | add lst e => exact hwf.add hop
  | addAfter b e => exact hwf.addAfter hop
  | deattach e => exact hwf.deattach hop

/-- `list_empty` tells the lists without members. -/
theorem ListsWellFormed.listEmpty_iff (hwf : ListsWellFormed h heads seq) {a : ℕ}
    (ha : a ∈ heads) : listEmpty h a = true ↔ seq a = [] := by
  have hc := hwf.linked a ha
  have hn := hwf.nodup a ha
  rw [listEmpty, beq_iff_eq]
  cases hseq : seq a with
  | nil =>
    rw [hseq] at hc
    simpa using (List.isChain_pair.1 hc).1.symm
  | cons b s =>
    rw [hseq] at hc hn
    have hnext : h.next a = b := (List.isChain_cons_cons.1 hc).1.1
    rw [hnext]
    simp at hn
    simp [hn.1.1]

theorem listForEachFrom_chain {a : ℕ} :
    ∀ {l : List ℕ} {x : ℕ}, (x :: (l ++ [a])).IsChain (Neighbours h) → a ∉ l →
      listForEachFrom h a (l.length + 1) (h.next x) = some l
  | [], x, hc, _ => by
      have hnext : h.next x = a := (List.isChain_pair.1 hc).1
      simp [listForEachFrom, hnext]
  | b :: l, x, hc, ha => by
      rw [List.cons_append, List.isChain_cons_cons] at hc
      have hnext : h.next x = b := hc.1.1
      simp only [List.mem_cons, not_or] at ha
      have ih := listForEachFrom_chain hc.2 ha.2
      rw [List.length_cons, listForEachFrom, hnext, if_neg (Ne.symm ha.1), ih]
      rfl

/-- `LIST_FOR_EACH` visits the members in order. -/
theorem ListsWellFormed.listForEach_eq (hwf : ListsWellFormed h heads seq) {a : ℕ}
    (ha : a ∈ heads) : listForEach h ((seq a).length + 1) a = some (seq a) :=
  listForEachFrom_chain (hwf.linked a ha) (List.nodup_cons.1 (hwf.nodup a ha)).1

/-! ## Runs -/

theorem allowedRun_append {ops ops' : List ListOp} :
    AllowedRun heads seq (ops ++ ops') ↔
      AllowedRun heads seq ops ∧ AllowedRun heads (runSeqs seq ops) ops' := by
  induction ops generalizing seq with
  | nil => simp [AllowedRun, runSeqs]
  | cons op ops ih =>
    rw [List.cons_append, AllowedRun, AllowedRun, ih, and_assoc]
    rfl

/-- The lists are well formed after every allowed run. -/
theorem ListsWellFormed.run (hwf : ListsWellFormed h heads seq) {ops : List ListOp}
    (hops : AllowedRun heads seq ops) :
    ListsWellFormed (runOps h ops) heads (runSeqs seq ops) := by
  induction ops generalizing h seq with
  | nil => exact hwf
  | cons op ops ih => exact ih (hwf.step hops.1).1 hops.2

end Step

/-- **Intrusive lists behave as sequences.**  After every run of calls that are allowed when
they are made all lists are well formed, every call of it has changed one list as it says and
no other, and `list_empty` and `LIST_FOR_EACH` tell the sequences. -/
theorem listRun_sequences {h : ListHeap} {heads : Set ℕ} {seq : ℕ → List ℕ}
    (hwf : ListsWellFormed h heads seq) (ops : List ListOp) (hops : AllowedRun heads seq ops) :
    ListsWellFormed (runOps h ops) heads (runSeqs seq ops) ∧
      (∀ before op after, ops = before ++ op :: after →
        op.Effect heads (runSeqs seq before) (runSeqs seq (before ++ [op]))) ∧
      ∀ a ∈ heads,
        (listEmpty (runOps h ops) a = true ↔ runSeqs seq ops a = []) ∧
          listForEach (runOps h ops) ((runSeqs seq ops a).length + 1) a
            = some (runSeqs seq ops a) := by
  have hrun := hwf.run hops
  refine ⟨hrun, ?_, fun a ha => ⟨hrun.listEmpty_iff ha, hrun.listForEach_eq ha⟩⟩
  rintro before op after rfl
  rw [allowedRun_append] at hops
  have hstep := (hwf.run hops.1).step hops.2.1
  simpa [runSeqs] using hstep.2

/-- Two lists with the heads 0 and 1 after `LIST_INIT`, and a node that moves from one to the
other. -/
theorem listRun_moved :
    listForEach (runOps ⟨id, id⟩ [.add 0 2, .add 0 3, .addAfter 2 4, .addAfter 0 5, .deattach 2,
      .add 1 2]) 4 0 = some [5, 4, 3] := by
  have hwf : ListsWellFormed ⟨id, id⟩ {0, 1} fun _ => [] := by
    constructor <;> simp [ring, Neighbours]
  have hrun := listRun_sequences hwf [.add 0 2, .add 0 3, .addAfter 2 4, .addAfter 0 5,
    .deattach 2, .add 1 2] (by
      simp [AllowedRun, ListOp.Allowed, FreeNode, ListOp.onSeqs, ListOp.onSeq, insertAfter])
  exact (hrun.2.2 0 (by simp)).2
