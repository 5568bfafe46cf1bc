import JsonShapes.Failure.Drawing
import JsonShapes.Proofs.Lists

/-! # The layout of a drawing

A drawn tree has one line for each node, the nodes in preorder. What stands before a label tells how deep
the node is and which of the nodes above it have later siblings; and the lines lead back to the tree, since
below a node a child begins where a line begins with a corner.
-/
namespace JsonShapes.Tree
set_option autoImplicit false

/-! ## Addresses -/

/-- The node that is reached through the children at these positions. -/
def at? (t : Tree) : List Nat → Option Tree
  | [] => some t
  | i :: rest => t.children[i]?.bind fun child => child.at? rest

mutual

/-- Where the nodes are, each before those below it and these from left to right. -/
def addresses : Tree → List (List Nat)
  | node _ children => [] :: addressesFrom 0 children

def addressesFrom (i : Nat) : List Tree → List (List Nat)
  | [] => []
  | t :: rest => t.addresses.map (i :: ·) ++ addressesFrom (i + 1) rest

end

/-- Whether the node at an address has a sibling after it. -/
def hasLater (t : Tree) (address : List Nat) : Bool :=
  match address.getLast? with
  | some i => (t.at? (address.dropLast ++ [i + 1])).isSome
  | none => false

/-- What joins a node to its parent, which may have later children. -/
def corner : Bool → String
  | true => "├─ "
  | false => "└─ "

/-- What stands below a node before the lines of the nodes under it. -/
def pillar : Bool → String
  | true => "│  "
  | false => "   "

/-- One column for each node between the root and the node, and the corner of the node itself. -/
def margin (t : Tree) (address : List Nat) : String :=
  match address.length with
  | 0 => ""
  | d + 1 =>
    String.join ((List.range' 1 d).map fun j => pillar (t.hasLater (address.take j))) ++
      corner (t.hasLater address)

theorem mem_addressesFrom {start : Nat} {ts : List Tree} {address : List Nat} :
    address ∈ addressesFrom start ts ↔
      ∃ i t rest, address = (start + i) :: rest ∧ ts[i]? = some t ∧ rest ∈ t.addresses := by
  induction ts generalizing start with
  | nil => simp [addressesFrom]
  | cons t ts ih =>
    rw [addressesFrom, List.mem_append, List.mem_map, ih]
    constructor
    · rintro (⟨rest, hRest, rfl⟩ | ⟨i, t', rest, rfl, hAt, hRest⟩)
      · exact ⟨0, t, rest, rfl, rfl, hRest⟩
      · exact ⟨i + 1, t', rest, by rw [Nat.add_assoc, Nat.add_comm 1], hAt, hRest⟩
    · rintro ⟨i, t', rest, rfl, hAt, hRest⟩
      cases i with
      | zero => exact .inl ⟨rest, Option.some.inj hAt ▸ hRest, rfl⟩
      | succ i => exact .inr ⟨i, t', rest, by rw [Nat.add_assoc, Nat.add_comm 1], hAt, hRest⟩

theorem mem_addresses_iff {t : Tree} {address : List Nat} :
    address ∈ t.addresses ↔ (t.at? address).isSome := by
  induction address generalizing t with
  | nil =>
    obtain ⟨label, children⟩ := t
    simp [addresses, at?]
  | cons i rest ih =>
    obtain ⟨label, children⟩ := t
    simp only [addresses, List.mem_cons, reduceCtorEq, false_or, mem_addressesFrom, at?, Tree.children,
      Nat.zero_add]
    constructor
    · rintro ⟨_, child, _, hAddress, hChild, hRest⟩
      cases hAddress
      rw [hChild]
      exact ih.mp hRest
    · intro h
      obtain ⟨child, hChild⟩ := Option.isSome_iff_exists.mp (Option.isSome_of_isSome_bind h)
      rw [hChild] at h
      exact ⟨i, child, rest, rfl, hChild, ih.mpr h⟩

mutual

/-- In preorder an address comes before those that it begins and before those that turn right of it. -/
theorem pairwise_addresses (t : Tree) : t.addresses.Pairwise (List.Lex (· < ·)) := by
  obtain ⟨label, children⟩ := t
  rw [addresses, List.pairwise_cons]
  refine ⟨?_, pairwise_addressesFrom 0 children⟩
  intro address hAddress
  obtain ⟨i, child, rest, rfl, _⟩ := mem_addressesFrom.mp hAddress
  exact .nil

theorem pairwise_addressesFrom (start : Nat) (ts : List Tree) :
    (addressesFrom start ts).Pairwise (List.Lex (· < ·)) := by
  cases ts with
  | nil => exact .nil
  | cons t rest =>
    rw [addressesFrom, List.pairwise_append, List.pairwise_map]
    refine ⟨(pairwise_addresses t).imp .cons, pairwise_addressesFrom (start + 1) rest, ?_⟩
    intro a ha b hb
    obtain ⟨a, _, rfl⟩ := List.mem_map.mp ha
    obtain ⟨i, _, b, rfl, _⟩ := mem_addressesFrom.mp hb
    exact .rel (by omega)

end

/-! ## Lines -/

/-- The line of the node at an address. -/
def LineAt (t : Tree) (address : List Nat) (line : String) : Prop :=
  ∃ s, t.at? address = some s ∧ line = t.margin address ++ s.label

section
variable {t child : Tree} {i : Nat} {address : List Nat}

theorem hasLater_singleton (t : Tree) (i : Nat) : t.hasLater [i] = t.children[i + 1]?.isSome := by
  cases hLater : t.children[i + 1]? <;> simp [hasLater, at?, hLater]

theorem hasLater_cons (hChild : t.children[i]? = some child) (hAddress : address ≠ []) :
    t.hasLater (i :: address) = child.hasLater address := by
  obtain ⟨j, rest, rfl⟩ := List.exists_cons_of_ne_nil hAddress
  simp only [hasLater, List.getLast?_cons_cons, List.dropLast_cons_of_ne_nil hAddress,
    List.cons_append, at?, hChild, Option.bind_some]

theorem margin_singleton (t : Tree) (i : Nat) : t.margin [i] = corner (t.hasLater [i]) := by
  simp [margin]

theorem margin_cons (hChild : t.children[i]? = some child) (hAddress : address ≠ []) :
    t.margin (i :: address) = pillar (t.hasLater [i]) ++ child.margin address := by
  obtain ⟨j, rest, rfl⟩ := List.exists_cons_of_ne_nil hAddress
  have hColumns : (List.range' 2 rest.length).map (fun k => pillar (t.hasLater ((i :: j :: rest).take k))) =
      (List.range' 1 rest.length).map fun k => pillar (child.hasLater ((j :: rest).take k)) := by
    rw [← List.map_add_range' 1, List.map_map]
    apply List.map_congr_left
    intro k hk
    obtain ⟨k, rfl⟩ := Nat.exists_eq_succ_of_ne_zero (show k ≠ 0 by simp at hk; omega)
    rw [Function.comp_apply, Nat.add_comm 1, List.take_succ_cons, hasLater_cons hChild (by simp)]
  rw [margin, margin, List.length_cons, List.length_cons]
  dsimp only
  rw [List.range'_succ, List.map_cons, String.join_cons, hColumns, hasLater_cons hChild hAddress,
    String.append_assoc]
  rfl

theorem LineAt.root (label : String) (children : List Tree) : LineAt (node label children) [] label :=
  ⟨_, rfl, String.empty_append.symm⟩

theorem LineAt.first (hChild : t.children[i]? = some child) :
    t.LineAt [i] (corner (t.hasLater [i]) ++ child.label) :=
  ⟨child, by simp [at?, hChild], by rw [margin_singleton]⟩

theorem LineAt.below {line : String} (h : child.LineAt address line)
    (hChild : t.children[i]? = some child) (hAddress : address ≠ []) :
    t.LineAt (i :: address) (pillar (t.hasLater [i]) ++ line) := by
  obtain ⟨s, hAt, rfl⟩ := h
  refine ⟨s, ?_, ?_⟩
  · rw [at?, hChild]
    exact hAt
  · rw [margin_cons hChild hAddress, String.append_assoc]

end

theorem linesBelow_cons (t : Tree) (rest : List Tree) :
    linesBelow (t :: rest) = graft (corner !rest.isEmpty) (pillar !rest.isEmpty) t.lines ++ linesBelow rest := by
  cases rest with
  | nil => simp [linesBelow, corner, pillar]
  | cons _ _ => simp [linesBelow, corner, pillar]

theorem graft_lines (first others : String) (t : Tree) :
    graft first others t.lines = (first ++ t.label) :: (linesBelow t.children).map (others ++ ·) := by
  obtain ⟨label, children⟩ := t
  rw [lines, graft]
  rfl

/-- A child goes on from the corner of its place in its first line, and from the pillar in all others. -/
theorem graft_laid {t child : Tree} {i : Nat} (hChild : t.children[i]? = some child)
    (h : List.Forall₂ child.LineAt child.addresses child.lines) :
    List.Forall₂ t.LineAt (child.addresses.map (i :: ·))
      (graft (corner (t.hasLater [i])) (pillar (t.hasLater [i])) child.lines) := by
  rw [graft_lines]
  obtain ⟨label, children⟩ := child
  rw [addresses, lines, List.forall₂_cons] at h
  have hBelow : ∀ address ∈ addressesFrom 0 children, address ≠ [] := by
    intro address hAddress
    obtain ⟨_, _, _, rfl, _⟩ := mem_addressesFrom.mp hAddress
    exact List.cons_ne_nil _ _
  refine .cons (.first hChild) ?_
  rw [List.forall₂_map_left_iff, List.forall₂_map_right_iff]
  exact forall₂_imp_of_mem h.2 fun address hAddress _ hLine => hLine.below hChild (hBelow address hAddress)

mutual

theorem lines_laid (t : Tree) : List.Forall₂ t.LineAt t.addresses t.lines := by
  obtain ⟨label, children⟩ := t
  rw [addresses, lines]
  exact .cons (.root label children) (linesBelow_laid (node label children) 0 children rfl)

theorem linesBelow_laid (t : Tree) (i : Nat) (ts : List Tree) (h : t.children.drop i = ts) :
    List.Forall₂ t.LineAt (addressesFrom i ts) (linesBelow ts) := by
  -- Lines are told about the whole of `t`, so the children left of `ts` stay in sight.
  cases ts with
  | nil => exact .nil
  | cons child rest =>
    have hChild : t.children[i]? = some child := by
      rw [← Nat.add_zero i, ← List.getElem?_drop, h]
      rfl
    have hRest : t.children.drop (i + 1) = rest := by
      rw [← List.drop_drop, h]
      rfl
    have hLater : t.hasLater [i] = !rest.isEmpty := by
      rw [hasLater_singleton, ← List.getElem?_drop, h]
      cases rest <;> rfl
    rw [addressesFrom, linesBelow_cons, ← hLater]
    exact List.rel_append (graft_laid hChild (lines_laid child)) (linesBelow_laid t (i + 1) rest hRest)

end

/-! ## Text -/

/-- The text cut at its newlines. -/
def cut (text : String) : List String := (text.toList.splitOn '\n').map String.ofList

/-- No label goes on in a further line. -/
def OneLine (t : Tree) : Prop := ∀ address s, t.at? address = some s → '\n' ∉ s.label.toList

theorem oneLine_node {label : String} {children : List Tree} :
    (node label children).OneLine ↔ '\n' ∉ label.toList ∧ ∀ child ∈ children, child.OneLine := by
  constructor
  · intro h
    refine ⟨h [] _ rfl, ?_⟩
    intro child hChild address s hAt
    obtain ⟨i, hi⟩ := List.mem_iff_getElem?.mp hChild
    apply h (i :: address) s
    rw [at?, Tree.children, hi]
    exact hAt
  · rintro ⟨hLabel, hChildren⟩ address s hAt
    cases address with
    | nil =>
      cases hAt
      exact hLabel
    | cons i address =>
      obtain ⟨child, hChild, hAt⟩ := Option.bind_eq_some_iff.mp hAt
      exact hChildren child (List.mem_of_getElem? hChild) address s hAt

theorem newline_notMem_margin (t : Tree) (address : List Nat) : '\n' ∉ (t.margin address).toList := by
  have hCorner : ∀ later, '\n' ∉ (corner later).toList := by decide
  have hPillar : ∀ later, '\n' ∉ (pillar later).toList := by decide
  rw [margin]
  split
  · decide
  · rw [String.toList_append, String.toList_join, List.mem_append, List.mem_flatMap]
    rintro (⟨_, hColumn, hMem⟩ | hMem)
    · obtain ⟨j, _, rfl⟩ := List.mem_map.mp hColumn
      exact hPillar _ hMem
    · exact hCorner _ hMem

theorem newline_notMem_lines {t : Tree} (h : t.OneLine) : ∀ line ∈ t.lines, '\n' ∉ line.toList := by
  intro line hLine
  obtain ⟨address, _, s, hAt, rfl⟩ := forall₂_mem_right t.lines_laid hLine
  rw [String.toList_append, List.mem_append]
  rintro (hMem | hMem)
  · exact t.newline_notMem_margin address hMem
  · exact h address s hAt hMem

theorem cut_draw {t : Tree} (h : t.OneLine) : cut t.draw = t.lines := by
  have hLines : ∀ line ∈ t.lines.map String.toList, '\n' ∉ line := by
    rw [List.forall_mem_map]
    exact newline_notMem_lines h
  have hSome : t.lines.map String.toList ≠ [] := by
    obtain ⟨label, children⟩ := t
    simp [lines]
  have hNewline : "\n".toList = ['\n'] := rfl
  rw [cut, draw, String.toList_intercalate, hNewline, List.splitOn_intercalate _ hLines hSome, List.map_map]
  have hBack : String.ofList ∘ String.toList = id := funext fun _ => String.ofList_toList
  rw [hBack, List.map_id]

/-! ## Back to the tree -/

/-- The line stands within the drawing of a child, below its first line. -/
def continues (line : String) : Bool :=
  line.toList.head? == some ' ' || line.toList.head? == some '│'

/-- Where the lines of the first child end is seen from how the lines after them begin. -/
theorem first_block_eq {first first' : String} {block block' rest rest' : List String}
    (hBlock : ∀ line ∈ block, continues line) (hBlock' : ∀ line ∈ block', continues line)
    (hRest : ∀ line ∈ rest.head?, continues line = false)
    (hRest' : ∀ line ∈ rest'.head?, continues line = false)
    (h : first :: block ++ rest = first' :: block' ++ rest') :
    first :: block = first' :: block' ∧ rest = rest' := by
  have hEnds : ∀ {rest : List String}, (∀ line ∈ rest.head?, continues line = false) →
      rest.takeWhile continues = [] := by
    intro rest hRest
    cases rest with
    | nil => rfl
    | cons line _ => rw [List.takeWhile_cons, if_neg (by simp [hRest line rfl])]
  rw [List.cons_append, List.cons_append, List.cons.injEq] at h
  obtain ⟨hFirst, h⟩ := h
  have hBlocks := congrArg (List.takeWhile continues) h
  rw [List.takeWhile_append_of_pos hBlock, List.takeWhile_append_of_pos hBlock', hEnds hRest,
    hEnds hRest', List.append_nil, List.append_nil] at hBlocks
  rw [hBlocks] at h
  exact ⟨by rw [hFirst, hBlocks], List.append_cancel_left h⟩

theorem continues_pillar (later : Bool) (line : String) : continues (pillar later ++ line) = true := by
  cases later <;> simp [continues, pillar]

theorem continues_corner (later : Bool) (line : String) : continues (corner later ++ line) = false := by
  cases later <;> simp [continues, corner]

theorem continues_head_linesBelow (ts : List Tree) :
    ∀ line ∈ (linesBelow ts).head?, continues line = false := by
  cases ts with
  | nil => simp [linesBelow]
  | cons t rest =>
    rw [linesBelow_cons, graft_lines, List.cons_append, List.head?_cons]
    rintro _ ⟨⟩
    exact continues_corner _ _

theorem graft_injective (first others : String) {block block' : List String}
    (h : graft first others block = graft first others block') : block = block' := by
  cases block with
  | nil =>
    cases block' with
    | nil => rfl
    | cons _ _ => cases h
  | cons line rest =>
    cases block' with
    | nil => cases h
    | cons line' rest' =>
      rw [graft, graft, List.cons.injEq, String.append_right_inj] at h
      have hOthers : Function.Injective (others ++ ·) := fun _ _ => (String.append_right_inj others).mp
      rw [h.1, List.map_injective_iff.mpr hOthers h.2]

mutual

theorem lines_injective (t t' : Tree) (h : t.lines = t'.lines) : t = t' := by
  obtain ⟨label, children⟩ := t
  obtain ⟨label', children'⟩ := t'
  rw [lines, lines, List.cons.injEq] at h
  rw [h.1, linesBelow_injective children children' h.2]

theorem linesBelow_injective (ts ts' : List Tree) (h : linesBelow ts = linesBelow ts') : ts = ts' := by
  cases ts with
  | nil =>
    cases ts' with
    | nil => rfl
    | cons t' rest' => rw [linesBelow_cons, graft_lines] at h; cases h
  | cons t rest =>
    cases ts' with
    | nil => rw [linesBelow_cons, graft_lines] at h; cases h
    | cons t' rest' =>
      rw [linesBelow_cons, linesBelow_cons, graft_lines, graft_lines] at h
      have hBlock : ∀ (later : Bool) (below : List String), ∀ line ∈ below.map (pillar later ++ ·),
          continues line = true := by
        intro later below
        rw [List.forall_mem_map]
        exact fun line _ => continues_pillar later line
      obtain ⟨hChild, hRest⟩ := first_block_eq (hBlock _ _) (hBlock _ _) (continues_head_linesBelow rest)
        (continues_head_linesBelow rest') h
      -- The siblings come first: whether there are any decides the corner and the pillar of the child.
      have hRestEq := linesBelow_injective rest rest' hRest
      rw [hRestEq, ← graft_lines, ← graft_lines] at hChild
      rw [hRestEq, lines_injective t t' (graft_injective _ _ hChild)]

end

/-- A drawing has one line for each node, in preorder: the label of the node behind a column for each node
between it and the root, with a bar where that node has later siblings, and a corner that is open where
the node itself has later siblings. No two trees whose labels are single lines have the same drawing. -/
theorem draw_faithful {t : Tree} (h : t.OneLine) :
    List.Forall₂ t.LineAt t.addresses (cut t.draw) ∧
      (∀ address, address ∈ t.addresses ↔ (t.at? address).isSome) ∧
      t.addresses.Pairwise (List.Lex (· < ·)) ∧
      ∀ t' : Tree, t'.OneLine → (t.draw = t'.draw ↔ t = t') := by
  refine ⟨?_, fun _ => mem_addresses_iff, t.pairwise_addresses, ?_⟩
  · rw [cut_draw h]
    exact t.lines_laid
  · intro t' h'
    refine ⟨fun hDraw => ?_, congrArg draw⟩
    apply lines_injective
    rw [← cut_draw h, ← cut_draw h', hDraw]

namespace Masks

/-- The first child bears the text that would draw a child of a child. -/
def masked : Tree := .node "a" [.node "b" [], .node "│  └─ c" [.node "" []], .node "  d" []]

def bare : Tree := .node "a" [.node "b" [.node "c" [.node "" []]], .node "  d" []]

theorem masked_oneLine : masked.OneLine := by
  simp [masked, oneLine_node]

theorem bare_oneLine : bare.OneLine := by
  simp [bare, oneLine_node]

theorem masked_draw_faithful :
    masked.OneLine ∧ bare.OneLine ∧
      masked.lines = ["a", "├─ b", "├─ │  └─ c", "│  └─ ", "└─   d"] ∧
      List.Forall₂ masked.LineAt masked.addresses (cut masked.draw) ∧
      (∀ address, address ∈ masked.addresses ↔ (masked.at? address).isSome) ∧
      masked.addresses.Pairwise (List.Lex (· < ·)) ∧ (masked.draw = bare.draw ↔ masked = bare) := by
  obtain ⟨hLines, hAddresses, hOrder, hDistinct⟩ := draw_faithful masked_oneLine
  exact ⟨masked_oneLine, bare_oneLine, rfl, hLines, hAddresses, hOrder, hDistinct bare bare_oneLine⟩

end Masks

end JsonShapes.Tree
