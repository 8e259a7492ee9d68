import BlockMachine.Proofs.Grammar

/-! # Positions have no say in what is derived

The grammar looks at the kinds of tokens only.  The positions of tokens are carried along into the
blocks and instructions that are derived, where two forests may differ without being different in
anything else.

* `CodeBlock.unplaced`, `FlatBlock.unplaced`, `Instruction.unplaced` — what is left of blocks and
  instructions without their positions;
* `DerivesForest.relocate` — tokens of the same kinds derive the same forest, up to positions.
-/

namespace BlockMachine

/-! ## Without positions -/

def Instruction.unplaced (i : Instruction) : Instruction :=
  { i with position := default }

def FlatBlock.unplaced (b : FlatBlock) : FlatBlock :=
  ⟨b.label, b.instructions.map Instruction.unplaced, 0⟩

namespace CodeBlock

mutual

def unplaced : CodeBlock → CodeBlock
  | ⟨label, instructions, blocks, _⟩ =>
    ⟨label, instructions.map Instruction.unplaced, unplacedAll blocks, 0⟩

def unplacedAll : List CodeBlock → List CodeBlock
  | [] => []
  | b :: rest => b.unplaced :: unplacedAll rest

end

mutual

theorem flatten_unplaced (b : CodeBlock) :
    b.unplaced.flatten = b.flatten.map FlatBlock.unplaced := by
  match b with
  | ⟨label, instructions, blocks, line⟩ =>
    rw [unplaced, flatten, flatten, List.map_cons, flattenAll_unplacedAll blocks]
    rfl

/-- Flattening does not look at positions. -/
theorem flattenAll_unplacedAll (forest : List CodeBlock) :
    flattenAll (unplacedAll forest) = (flattenAll forest).map FlatBlock.unplaced := by
  match forest with
  | [] => rfl
  | b :: rest =>
    rw [unplacedAll, flattenAll, flattenAll, List.map_append, flatten_unplaced b,
      flattenAll_unplacedAll rest]

end

end CodeBlock

open CodeBlock

/-! ## Tokens of the same kinds -/

theorem DerivesInstruction.relocate {ts ts' : List Token} {i : Instruction}
    (h : DerivesInstruction ts i) (hkinds : ts'.map Token.kind = ts.map Token.kind) :
    ∃ i', DerivesInstruction ts' i' ∧ i'.unplaced = i.unplaced := by
  cases h with
  | plain hm =>
    obtain ⟨⟨_, p⟩, rfl, rfl⟩ := List.map_eq_singleton_iff.1 hkinds
    exact ⟨_, .plain hm, rfl⟩
  | number hm hn =>
    obtain ⟨⟨_, p⟩, _, rfl, rfl, hoperand⟩ := List.map_eq_cons_iff.1 hkinds
    obtain ⟨⟨_, q⟩, rfl, rfl⟩ := List.map_eq_singleton_iff.1 hoperand
    exact ⟨_, .number hm hn, rfl⟩
  | name hm =>
    obtain ⟨⟨_, p⟩, _, rfl, rfl, hoperand⟩ := List.map_eq_cons_iff.1 hkinds
    obtain ⟨⟨_, q⟩, rfl, rfl⟩ := List.map_eq_singleton_iff.1 hoperand
    exact ⟨_, .name hm, rfl⟩

mutual

theorem DerivesBlock.relocate {ts ts' : List Token} {b : CodeBlock} (h : DerivesBlock ts b)
    (hkinds : ts'.map Token.kind = ts.map Token.kind) :
    ∃ b', DerivesBlock ts' b' ∧ b'.unplaced = b.unplaced := by
  match h with
  | @DerivesBlock.block label p q r s items is bs hitems =>
    -- The new tokens are taken apart as the old ones are put together.
    obtain ⟨⟨_, p'⟩, _, rfl, rfl, hcolon⟩ := List.map_eq_cons_iff.1 hkinds
    obtain ⟨⟨_, q'⟩, _, rfl, rfl, hbody⟩ := List.map_eq_cons_iff.1 hcolon
    rw [List.map_append] at hbody
    obtain ⟨items', _, rfl, hsame, hend⟩ := List.map_eq_append_iff.1 hbody
    obtain ⟨⟨_, r'⟩, _, rfl, rfl, hname⟩ := List.map_eq_cons_iff.1 hend
    obtain ⟨⟨_, s'⟩, rfl, rfl⟩ := List.map_eq_singleton_iff.1 hname
    obtain ⟨is', bs', hitems', his, hbs⟩ := hitems.relocate hsame
    refine ⟨_, .block hitems', ?_⟩
    rw [unplaced, unplaced, his, hbs]

theorem DerivesItems.relocate {ts ts' : List Token} {is : List Instruction} {bs : List CodeBlock}
    (h : DerivesItems ts is bs) (hkinds : ts'.map Token.kind = ts.map Token.kind) :
    ∃ is' bs', DerivesItems ts' is' bs' ∧
      is'.map Instruction.unplaced = is.map Instruction.unplaced ∧
      unplacedAll bs' = unplacedAll bs := by
  match h with
  | .nil =>
    obtain rfl := List.map_eq_nil_iff.1 hkinds
    exact ⟨[], [], .nil, rfl, rfl⟩
  | .instruction hi hrest =>
    rw [List.map_append] at hkinds
    obtain ⟨first, rest, rfl, hfirst, hkinds⟩ := List.map_eq_append_iff.1 hkinds
    obtain ⟨i', hi', hsame⟩ := hi.relocate hfirst
    obtain ⟨is', bs', hrest', his, hbs⟩ := hrest.relocate hkinds
    refine ⟨i' :: is', bs', .instruction hi' hrest', ?_, hbs⟩
    rw [List.map_cons, List.map_cons, hsame, his]
  | .block hb hrest =>
    rw [List.map_append] at hkinds
    obtain ⟨first, rest, rfl, hfirst, hkinds⟩ := List.map_eq_append_iff.1 hkinds
    obtain ⟨b', hb', hsame⟩ := hb.relocate hfirst
    obtain ⟨is', bs', hrest', his, hbs⟩ := hrest.relocate hkinds
    refine ⟨is', b' :: bs', .block hb' hrest', his, ?_⟩
    rw [unplacedAll, unplacedAll, hsame, hbs]

end

theorem DerivesForest.relocate {ts ts' : List Token} {bs : List CodeBlock}
    (h : DerivesForest ts bs) (hkinds : ts'.map Token.kind = ts.map Token.kind) :
    ∃ bs', DerivesForest ts' bs' ∧ unplacedAll bs' = unplacedAll bs := by
  induction h generalizing ts' with
  | nil =>
    obtain rfl := List.map_eq_nil_iff.1 hkinds
    exact ⟨[], .nil, rfl⟩
  | cons hb _ ih =>
    rw [List.map_append] at hkinds
    obtain ⟨first, rest, rfl, hfirst, hkinds⟩ := List.map_eq_append_iff.1 hkinds
    obtain ⟨b', hb', hsame⟩ := hb.relocate hfirst
    obtain ⟨bs', hrest', hbs⟩ := ih hkinds
    refine ⟨b' :: bs', .cons hb' hrest', ?_⟩
    rw [unplacedAll, unplacedAll, hsame, hbs]

end BlockMachine
