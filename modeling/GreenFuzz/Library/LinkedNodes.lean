import GreenFuzz.Library.Checked
import GreenFuzz.Library.Fallible
import Mathlib.Data.List.Nodup
import Mathlib.Logic.Function.Basic

/-!
# Doubly linked nodes in a heap

A heap maps addresses to nodes; an address without a node was never allocated or has been
freed, and following a link to it is a fault. A node has a link to the next node, and a link
to the previous one that may not have been written yet.

`LinkedFrom` says which nodes a link leads to, in order, and that their backward links agree
with their forward links. The rules here are what programs do to such lists: a node is pushed
in front (`LinkedFrom.push`), unlinked (`LinkedFrom.unlink`), its contents change
(`LinkedFrom.setItem`), all nodes are visited (`walk_eq`) or freed (`freeAll_ok`).

Loops along the links take an amount of fuel, and using it up is a fault as well.
-/

set_option autoImplicit false

namespace GreenFuzz.Library

/-- A backward link. -/
inductive Link where
  | unset | null | to (id : ℕ)
  deriving DecidableEq, Repr

/-- A node, with what it holds. -/
structure Node (α : Type) where
  item : α
  next : Option ℕ
  prev : Link

/-- The allocated nodes. -/
abbrev Heap (α : Type) := ℕ → Option (Node α)

variable {α β : Type}

namespace Heap

/-- Follow a link. -/
def deref (heap : Heap α) (id : ℕ) : Except Halt (Node α) :=
  (heap id).elim (.error .fault) .ok

/-- Write to a node. -/
def modify (heap : Heap α) (id : ℕ) (change : Node α → Node α) : Except Halt (Heap α) := do
  let node ← heap.deref id
  return Function.update heap id (some (change node))

/-- Release a node. -/
def free (heap : Heap α) (id : ℕ) : Heap α := Function.update heap id none

/-- Allocate a node in front of a list. -/
def push (heap : Heap α) (id : ℕ) (item : α) (start : Option ℕ) (prev : Link) :
    Except Halt (Heap α) :=
  let cells : Heap α :=
    Function.update heap id (some { item := item, next := start, prev := prev })
  match start with
  | none => pure cells
  | some head => cells.modify head fun node => { node with prev := .to id }

/-- Let the neighbours of a node that is not the first one pass it by. -/
def unlink (heap : Heap α) (id : ℕ) : Except Halt (Heap α) := do
  let node ← heap.deref id
  match node.next, node.prev with
  | some next, .to prev => do
      let heap ← heap.modify prev fun node => { node with next := some next }
      heap.modify next fun node => { node with prev := .to prev }
  | some _, _ => .error .fault
  | none, .to prev => heap.modify prev fun node => { node with next := none }
  | none, .null => pure heap
  | none, .unset => .error .fault

/-- Visit the nodes from a link on, until the visitor has enough. -/
def walk (heap : Heap α) (visit : ℕ → α → β → ForInStep β) :
    ℕ → Option ℕ → β → Except Halt β
  | _, none, state => pure state
  | 0, some _, _ => .error .fault
  | fuel + 1, some id, state => do
      let node ← heap.deref id
      match visit id node.item state with
      | .done state => pure state
      | .yield state => heap.walk visit fuel node.next state

/-- Release the nodes from a link on. -/
def freeAll : ℕ → Heap α → Option ℕ → Except Halt (Heap α)
  | _, heap, none => pure heap
  | 0, _, some _ => .error .fault
  | fuel + 1, heap, some id => do
      let node ← heap.deref id
      freeAll fuel (heap.free id) node.next

end Heap

/-- What a visitor makes of a list of items. -/
def visitAll (visit : ℕ → α → β → ForInStep β) : List (ℕ × α) → β → β
  | [], state => state
  | (id, item) :: rest, state =>
      match visit id item state with
      | .done state => state
      | .yield state => visitAll visit rest state

/-- The nodes that a link leads to, in order, with what they hold. The backward link of the
first one is the given one, if any is. -/
def LinkedFrom (heap : Heap α) : Option Link → Option ℕ → List (ℕ × α) → Prop
  | _, start, [] => start = none
  | before, start, (id, item) :: rest =>
      start = some id ∧ ∃ node, heap id = some node ∧ node.item = item ∧
        (∀ link, before = some link → node.prev = link) ∧
        LinkedFrom heap (some (.to id)) node.next rest

/-- The addresses of a list of items. -/
abbrev addresses (items : List (ℕ × α)) : List ℕ := items.map Prod.fst

section Links

variable {heap other : Heap α} {before : Option Link} {start : Option ℕ}
  {items left right tail : List (ℕ × α)} {id : ℕ} {item : α} {fuel : ℕ}

theorem deref_eq {node : Node α} (there : heap id = some node) : heap.deref id = .ok node := by
  rw [Heap.deref, there]
  rfl

theorem modify_eq {node : Node α} {change : Node α → Node α} (there : heap id = some node) :
    heap.modify id change = .ok (Function.update heap id (some (change node))) := by
  rw [Heap.modify, deref_eq there]
  rfl

/-- A change to a later part of a list, wherever that part starts. -/
theorem LinkedFrom.changeLater {tail' : List (ℕ × α)}
    (linked : LinkedFrom heap before start (left ++ tail))
    (same : ∀ id ∈ addresses left, other id = heap id)
    (changes : ∀ before start, LinkedFrom heap before start tail →
      LinkedFrom other before start tail') :
    LinkedFrom other before start (left ++ tail') := by
  induction left generalizing before start with
  | nil => exact changes before start linked
  | cons first rest ih =>
      obtain ⟨start_eq, node, there, holds, back, rest_linked⟩ := linked
      have unchanged := same first.1 List.mem_cons_self
      refine ⟨start_eq, node, unchanged.trans there, holds, back, ih rest_linked ?_⟩
      exact fun id member => same id (List.mem_cons_of_mem _ member)

/-- The list is about its own nodes only. -/
theorem LinkedFrom.congr (linked : LinkedFrom heap before start items)
    (same : ∀ id ∈ addresses items, other id = heap id) : LinkedFrom other before start items := by
  rw [← List.append_nil items] at linked ⊢
  exact linked.changeLater same fun _ _ none => none

/-- A write to a node that is not in the list. -/
theorem LinkedFrom.update (linked : LinkedFrom heap before start items)
    (apart : id ∉ addresses items) (cell : Option (Node α)) :
    LinkedFrom (Function.update heap id cell) before start items := by
  refine linked.congr fun other member => Function.update_of_ne ?_ _ _
  rintro rfl
  exact apart member

/-- Nothing has to be known about the first backward link. -/
theorem LinkedFrom.forget (linked : LinkedFrom heap before start items) :
    LinkedFrom heap none start items := by
  cases items with
  | nil => exact linked
  | cons first rest =>
      obtain ⟨start_eq, node, there, holds, -, rest_linked⟩ := linked
      exact ⟨start_eq, node, there, holds, fun _ known => (nomatch known), rest_linked⟩

/-- The link leads to the first node. -/
theorem LinkedFrom.start_eq (linked : LinkedFrom heap before start items) :
    start = (addresses items).head? := by
  cases items with
  | nil => exact linked
  | cons first rest => exact linked.1

/-- A later part of a list is a list. -/
theorem LinkedFrom.later (linked : LinkedFrom heap before start (left ++ tail)) :
    ∃ before start, LinkedFrom heap before start tail := by
  induction left generalizing before start with
  | nil => exact ⟨before, start, linked⟩
  | cons first rest ih =>
      obtain ⟨-, node, -, -, -, rest_linked⟩ := linked
      exact ih rest_linked

/-! ## Operations -/

/-- The backward link of the first node is redirected. -/
theorem LinkedFrom.redirect (linked : LinkedFrom heap before (some id) items)
    (distinct : (addresses items).Nodup) (link : Link) :
    ∃ node, heap id = some node ∧
      LinkedFrom (Function.update heap id (some { node with prev := link })) (some link)
        (some id) items := by
  cases items with
  | nil => exact nomatch linked
  | cons first rest =>
      obtain ⟨start_eq, node, there, holds, -, rest_linked⟩ := linked
      cases start_eq
      have apart := (List.nodup_cons.mp distinct).1
      refine ⟨node, there, rfl, { node with prev := link }, Function.update_self _ _ _, holds, ?_,
        rest_linked.update apart _⟩
      exact fun _ known => Option.some.inj known

/-- A new node in front. -/
theorem LinkedFrom.push (linked : LinkedFrom heap before start items)
    (distinct : (addresses items).Nodup) (fresh : id ∉ addresses items) (item : α) (link : Link) :
    ∃ pushed, heap.push id item start link = .ok pushed ∧
      LinkedFrom pushed (some link) (some id) ((id, item) :: items) := by
  have old := linked.update fresh (some { item := item, next := start, prev := link })
  cases start with
  | none =>
      refine ⟨_, rfl, rfl, _, Function.update_self _ _ _, rfl,
        fun _ known => Option.some.inj known, ?_⟩
      cases items with
      | nil => rfl
      | cons first rest => exact nomatch old.1
  | some head =>
      obtain ⟨node, there, redirected⟩ := old.redirect distinct (.to id)
      refine ⟨_, modify_eq there, rfl, ⟨item, some head, link⟩, ?_, rfl,
        fun _ known => Option.some.inj known, redirected⟩
      have head_member : head ∈ addresses items := List.mem_of_head? old.start_eq.symm
      have apart : id ≠ head := fun same => fresh (same ▸ head_member)
      rw [Function.update_of_ne apart, Function.update_self]

/-- The contents of a node change. -/
theorem LinkedFrom.setItem (linked : LinkedFrom heap before start (left ++ (id, item) :: right))
    (distinct : (addresses (left ++ (id, item) :: right)).Nodup) (change : α → α) :
    ∃ changed, heap.modify id (fun node => { node with item := change node.item }) =
        .ok changed ∧
      LinkedFrom changed before start (left ++ (id, change item) :: right) := by
  obtain ⟨before', start', here⟩ := linked.later
  obtain ⟨-, node, there, rfl, -, -⟩ := here
  refine ⟨_, modify_eq there, linked.changeLater ?_ ?_⟩
  · intro other member
    refine Function.update_of_ne ?_ _ _
    rintro rfl
    rw [addresses, List.map_append, List.nodup_append] at distinct
    exact distinct.2.2 other member other List.mem_cons_self rfl
  · rintro before start ⟨start_eq, node', there', -, back, rest_linked⟩
    cases there.symm.trans there'
    refine ⟨start_eq, _, Function.update_self _ _ _, rfl, back, rest_linked.update ?_ _⟩
    rw [addresses, List.map_append, List.nodup_append] at distinct
    exact (List.nodup_cons.mp distinct.2.1).1

/-- A node behind another one is passed by. -/
theorem LinkedFrom.unlink {prev : ℕ} {previous : α}
    (linked : LinkedFrom heap before start (left ++ (prev, previous) :: (id, item) :: right))
    (distinct : (addresses (left ++ (prev, previous) :: (id, item) :: right)).Nodup) :
    ∃ changed, heap.unlink id = .ok changed ∧
      LinkedFrom changed before start (left ++ (prev, previous) :: right) := by
  have parts := distinct
  rw [addresses, List.map_append, List.nodup_append] at parts
  obtain ⟨-, tail_distinct, apart⟩ := parts
  have prev_fresh := (List.nodup_cons.mp tail_distinct).1
  have right_distinct := (List.nodup_cons.mp (List.nodup_cons.mp tail_distinct).2).2
  have id_ne : prev ≠ id := fun same => prev_fresh (same ▸ List.mem_cons_self)
  have prev_right : prev ∉ addresses right := fun member =>
    prev_fresh (List.mem_cons_of_mem _ member)
  obtain ⟨before', start', here⟩ := linked.later
  obtain ⟨-, first, first_there, rfl, -, next_eq, node, there, rfl, back, right_linked⟩ := here
  have node_prev : node.prev = .to prev := back _ rfl
  have left_same (cell : Option (Node α)) (other : ℕ) (member : other ∈ addresses left) :
      Function.update heap prev cell other = heap other := by
    refine Function.update_of_ne ?_ _ _
    rintro rfl
    exact apart other member other List.mem_cons_self rfl
  have redirected : LinkedFrom (Function.update heap prev (some { first with next := node.next }))
      (some (.to id)) node.next right := right_linked.update prev_right _
  rw [Heap.unlink, deref_eq there]
  dsimp only [Bind.bind, Except.bind]
  rw [node_prev]
  cases behind : node.next with
  | none =>
      refine ⟨_, modify_eq first_there, linked.changeLater (left_same _) ?_⟩
      rintro before start ⟨start_eq, first', first_there', -, back', -⟩
      cases first_there.symm.trans first_there'
      refine ⟨start_eq, _, Function.update_self _ _ _, rfl, back', ?_⟩
      rw [behind] at redirected
      cases right with
      | nil => rfl
      | cons second rest => exact nomatch redirected.1
  | some next =>
      rw [behind] at redirected
      obtain ⟨second, second_there, linked_right⟩ := redirected.redirect right_distinct (.to prev)
      have next_member : next ∈ addresses right := List.mem_of_head? redirected.start_eq.symm
      have next_ne : prev ≠ next := fun same => prev_right (same ▸ next_member)
      refine ⟨Function.update (Function.update heap prev (some { first with next := some next }))
        next (some { second with prev := .to prev }), ?_, linked.changeLater ?_ ?_⟩
      · simp only [modify_eq first_there, modify_eq second_there]
      · intro other member
        have other_ne : other ≠ next := by
          rintro rfl
          exact apart other member other
            (List.mem_cons_of_mem _ (List.mem_cons_of_mem _ next_member)) rfl
        rw [Function.update_of_ne other_ne, left_same _ _ member]
      · rintro before start ⟨start_eq, first', first_there', -, back', -⟩
        cases first_there.symm.trans first_there'
        refine ⟨start_eq, { first with next := some next }, ?_, rfl, back', linked_right⟩
        rw [Function.update_of_ne next_ne, Function.update_self]

/-! ## Loops -/

/-- A walk visits the items in order. -/
theorem walk_eq (visit : ℕ → α → β → ForInStep β)
    (linked : LinkedFrom heap before start items) (enough : items.length ≤ fuel) (state : β) :
    heap.walk visit fuel start state = .ok (visitAll visit items state) := by
  induction items generalizing before start fuel state with
  | nil =>
      cases (show start = none from linked)
      cases fuel <;> rfl
  | cons first rest ih =>
      obtain ⟨start_eq, node, there, holds, -, rest_linked⟩ := linked
      cases start_eq
      cases fuel with
      | zero => exact absurd enough (Nat.not_succ_le_zero _)
      | succ fuel =>
          rw [Heap.walk, deref_eq there]
          simp only [Bind.bind, Except.bind, visitAll, holds]
          cases visit first.1 first.2 state with
          | done state => rfl
          | yield state => exact ih rest_linked (Nat.le_of_succ_le_succ enough) state

/-- What the visitor carries from item to item holds after a visit of all of them, unless the
visitor had enough. -/
theorem visitAll_cases (visit : ℕ → α → β → ForInStep β) (items : List (ℕ × α)) (state : β)
    {P : List (ℕ × α) → β → Prop} {Q : β → Prop} (initial : P [] state)
    (yields : ∀ seen id item b b', P seen b → visit id item b = .yield b' →
      P (seen ++ [(id, item)]) b')
    (stops : ∀ seen id item b b', P seen b → (id, item) ∈ items → visit id item b = .done b' →
      Q b') :
    P items (visitAll visit items state) ∨ Q (visitAll visit items state) := by
  have run (rest seen : List (ℕ × α)) (whole : items = seen ++ rest) (b : β) (holds : P seen b) :
      P items (visitAll visit rest b) ∨ Q (visitAll visit rest b) := by
    induction rest generalizing seen b with
    | nil =>
        rw [whole, List.append_nil]
        exact Or.inl holds
    | cons first rest ih =>
        rw [visitAll]
        cases visited : visit first.1 first.2 b with
        | done b' =>
            have member : first ∈ items := whole ▸ List.mem_append_right _ List.mem_cons_self
            exact Or.inr (stops seen first.1 first.2 b b' holds member visited)
        | yield b' =>
            refine ih (seen ++ [first]) ?_ b' (yields seen first.1 first.2 b b' holds visited)
            rw [whole, List.append_assoc, List.singleton_append]
  exact run items [] rfl state initial

/-- All nodes of a list can be freed. -/
theorem freeAll_ok (linked : LinkedFrom heap before start items)
    (distinct : (addresses items).Nodup) (enough : items.length ≤ fuel) :
    ∃ freed, Heap.freeAll fuel heap start = .ok freed := by
  induction items generalizing heap before start fuel with
  | nil =>
      cases (show start = none from linked)
      cases fuel <;> exact ⟨_, rfl⟩
  | cons first rest ih =>
      obtain ⟨start_eq, node, there, holds, -, rest_linked⟩ := linked
      cases start_eq
      obtain ⟨first_fresh, rest_distinct⟩ := List.nodup_cons.mp distinct
      cases fuel with
      | zero => exact absurd enough (Nat.not_succ_le_zero _)
      | succ fuel =>
          rw [Heap.freeAll, deref_eq there]
          exact ih (rest_linked.update first_fresh none) rest_distinct
            (Nat.le_of_succ_le_succ enough)

end Links

end GreenFuzz.Library
