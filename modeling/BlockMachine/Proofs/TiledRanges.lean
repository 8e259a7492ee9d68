import BlockMachine.Proofs.FetchedItems

/-! # Decoded items tile their range

Decoding walks over a range in steps whose width depends on the words, and meets words that are no
opcode and an opcode that is cut off at the end.  Still no word is lost or read twice: the items lie
side by side from the start of the range to its end, and their words are the code.

* `Tiles` — a walk over a range, item by item, that ends where the range ends;
* `itemsFrom_tiles` — decoding is such a walk;
* `Tiling` — how the items of a walk lie in the range;
* `itemsFrom_congr` — decoding depends on the words of the range alone.
-/

namespace BlockMachine

variable {code : Array Nat} {pos stop : Nat} {item : Item} {items : List Item}

/-! ## The words of an item -/

namespace ReadsItem

theorem offset_eq (h : ReadsItem code pos stop item) : item.offset = pos := by
  cases h <;> rfl

theorem end_le (h : ReadsItem code pos stop item) (hpos : pos < stop) :
    pos + item.words.length ≤ stop := by
  cases h with
  | operand hword hop hinside hoperand => exact hinside
  | unknown _ _ | plain _ _ | truncated _ _ _ => exact hpos

theorem getElem?_words (h : ReadsItem code pos stop item) {k : Nat} (hk : k < item.words.length) :
    item.words[k]? = code[pos + k]? := by
  cases h with
  | unknown hword _ | plain hword _ | truncated hword _ _ =>
    obtain rfl : k = 0 := by simp [Item.words] at hk; omega
    exact hword.symm
  | operand hword hop hinside hoperand =>
    obtain rfl | rfl : k = 0 ∨ k = 1 := by simp [Item.words] at hk; omega
    · exact hword.symm
    · exact hoperand.symm

theorem words_eq (h : ReadsItem code pos stop item) (hpos : pos < stop) (hstop : stop ≤ code.size) :
    item.words = (code.extract pos (pos + item.words.length)).toList := by
  have hend := h.end_le hpos
  apply List.ext_getElem
  · simp
    omega
  · intro k hk _
    have hword := h.getElem?_words hk
    rw [List.getElem?_eq_getElem hk, Array.getElem?_eq_getElem (by omega)] at hword
    simpa using hword

end ReadsItem

/-! ## Walks over a range -/

/-- The items follow each other from an offset up to `stop`, each read where the last one ended. -/
inductive Tiles (code : Array Nat) (stop : Nat) : Nat → List Item → Prop
  | done : Tiles code stop stop []
  | item {pos : Nat} {item : Item} {items : List Item} (hpos : pos < stop)
      (hreads : ReadsItem code pos stop item)
      (hrest : Tiles code stop (pos + item.words.length) items) :
      Tiles code stop pos (item :: items)

theorem itemsFrom_tiles (hpos : pos ≤ stop) (hstop : stop ≤ code.size) :
    Tiles code stop pos (itemsFrom code pos stop) := by
  fun_induction itemsFrom code pos stop with
  | case1 pos hlt hnone =>
    obtain ⟨item, hitem, _⟩ := itemAt?_reads hlt hstop
    rw [hitem] at hnone
    cases hnone
  | case2 pos hlt item hitem ih =>
    obtain ⟨item', hitem', hreads⟩ := itemAt?_reads hlt hstop
    cases hitem.symm.trans hitem'
    exact .item hlt hreads (ih (hreads.end_le hlt))
  | case3 pos hge =>
    obtain rfl : pos = stop := by omega
    exact .done

namespace Tiles

theorem head?_offset (h : Tiles code stop pos items) : ∀ item ∈ items.head?, item.offset = pos := by
  cases h with
  | done => simp
  | item hpos hreads hrest => simp [hreads.offset_eq]

theorem adjacent (h : Tiles code stop pos items) :
    items.IsChain fun i j => j.offset = i.offset + i.words.length := by
  induction h with
  | done => exact .nil
  | item hpos hreads hrest ih =>
    rw [List.isChain_cons, hreads.offset_eq]
    exact ⟨hrest.head?_offset, ih⟩

theorem getLast?_end (h : Tiles code stop pos items) :
    ∀ item ∈ items.getLast?, item.offset + item.words.length = stop := by
  induction h with
  | done => simp
  | item hpos hreads hrest ih =>
    cases hrest with
    | done => simp [hreads.offset_eq]
    | item _ _ _ => simpa using ih

theorem flatMap_words (h : Tiles code stop pos items) (hstop : stop ≤ code.size) :
    items.flatMap Item.words = (code.extract pos stop).toList := by
  induction h with
  | done => simp
  | @item pos item items hpos hreads hrest ih =>
    have hend := hreads.end_le hpos
    calc (item :: items).flatMap Item.words
        = (code.extract pos (pos + item.words.length) ++
            code.extract (pos + item.words.length) stop).toList := by
          rw [List.flatMap_cons, ih, Array.toList_append, ← hreads.words_eq hpos hstop]
      _ = (code.extract pos stop).toList := by
          rw [Array.extract_append_extract, Nat.min_eq_left (by omega), Nat.max_eq_right hend]

theorem reads (h : Tiles code stop pos items) :
    ∀ item ∈ items, item.offset + item.words.length ≤ stop ∧
      ReadsItem code item.offset stop item := by
  induction h with
  | done => simp
  | item hpos hreads hrest ih =>
    rw [List.forall_mem_cons, hreads.offset_eq]
    exact ⟨⟨hreads.end_le hpos, hreads⟩, ih⟩

/-- An opcode is cut off by the end of the range only, and there is no item after that. -/
theorem truncated_last (h : Tiles code stop pos items) {front back : List Item} {offset : Nat}
    {op : Opcode} (hitems : items = front ++ .truncated offset op :: back) : back = [] := by
  induction h generalizing front with
  | done => simp at hitems
  | item hpos hreads hrest ih =>
    cases front with
    | nil =>
      simp only [List.nil_append, List.cons.injEq] at hitems
      obtain ⟨rfl, rfl⟩ := hitems
      cases hreads with
      | truncated hword hop hend =>
        cases hrest with
        | done => rfl
        | item hpos' _ _ => simp [Item.words] at hpos'; omega
    | cons first front =>
      simp only [List.cons_append, List.cons.injEq] at hitems
      exact ih hitems.2

end Tiles

/-! ## How the items lie -/

/-- The items lie side by side from `start` to `stop` and stand for the words between. -/
structure Tiling (code : Array Nat) (start stop : Nat) (items : List Item) : Prop where
  first : items.head?.map Item.offset = some start
  increasing : items.Pairwise fun i j => i.offset < j.offset
  adjacent : items.IsChain fun i j => j.offset = i.offset + i.words.length
  last : items.getLast?.map (fun item => item.offset + item.words.length) = some stop
  words : items.flatMap Item.words = (code.extract start stop).toList
  truncated : ∀ front offset op back, items = front ++ .truncated offset op :: back → back = []
  reads : ∀ item ∈ items, item.offset + item.words.length ≤ stop ∧
    ReadsItem code item.offset stop item

/-- Items that lie side by side have increasing offsets, as each of them has a word. -/
theorem offsets_increasing
    (h : items.IsChain fun i j => j.offset = i.offset + i.words.length) :
    items.Pairwise fun i j => i.offset < j.offset := by
  have hchain : (items.map Item.offset).IsChain (· < ·) := by
    rw [List.isChain_map]
    refine h.imp fun i j hij => ?_
    have := i.length_words_pos
    omega
  exact List.pairwise_map.1 hchain.pairwise

theorem Tiles.tiling (h : Tiles code stop pos items) (hpos : pos < stop)
    (hstop : stop ≤ code.size) : Tiling code pos stop items := by
  have hne : items ≠ [] := by
    rintro rfl
    cases h
    omega
  exact
    { first := by
        rw [List.head?_eq_some_head hne, Option.map_some,
          h.head?_offset _ (List.head?_eq_some_head hne)]
      increasing := offsets_increasing h.adjacent
      adjacent := h.adjacent
      last := by
        rw [List.getLast?_eq_some_getLast hne, Option.map_some,
          h.getLast?_end _ (List.getLast?_eq_some_getLast hne)]
      words := h.flatMap_words hstop
      truncated := fun _ _ _ _ hitems => h.truncated_last hitems
      reads := h.reads }

/-! ## Words outside the range -/

section Congruence

variable {code' : Array Nat}

theorem itemAt?_congr (hpos : pos < stop)
    (h : ∀ offset, pos ≤ offset → offset < stop → code'[offset]? = code[offset]?) :
    itemAt? code' pos stop = itemAt? code pos stop := by
  rw [itemAt?, itemAt?, h pos (Nat.le_refl pos) hpos]
  by_cases hinside : pos + 1 < stop
  · rw [h (pos + 1) (Nat.le_succ pos) hinside]
  · simp only [hinside, if_false]

theorem itemsFrom_congr
    (h : ∀ offset, pos ≤ offset → offset < stop → code'[offset]? = code[offset]?) :
    itemsFrom code' pos stop = itemsFrom code pos stop := by
  fun_induction itemsFrom code pos stop with
  | case1 pos hlt hnone =>
    rw [itemsFrom, if_pos hlt, itemAt?_congr hlt h, hnone]
  | case2 pos hlt item hitem ih =>
    rw [itemsFrom, if_pos hlt, itemAt?_congr hlt h, hitem]
    exact congrArg (item :: ·) (ih fun offset hle => h offset (by omega))
  | case3 pos hge => rw [itemsFrom, if_neg hge]

end Congruence

/-- Decoding a range loses nothing.  The range may be reversed or reach past the end of the code, at
which it is cut off.  If nothing is left there are no items.  Otherwise the items lie side by side
from the start of the range to its end, their words are the code between, and only the last of them
may be an opcode that is cut off.  Whatever stands outside the range, the same items are read. -/
theorem decoded_items_tile_range (p : Program) (r : Range) :
    (min r.stop p.code.size ≤ r.start → p.items r = []) ∧
    (r.start < min r.stop p.code.size →
      Tiling p.code r.start (min r.stop p.code.size) (p.items r)) ∧
    ∀ code' : Array Nat,
      (∀ offset, r.start ≤ offset → offset < min r.stop p.code.size →
        code'[offset]? = p.code[offset]?) →
      itemsFrom code' r.start (min r.stop p.code.size) = p.items r := by
  have hstop : min r.stop p.code.size ≤ p.code.size := Nat.min_le_right _ _
  refine ⟨fun hempty => ?_, fun hstart => ?_, fun code' hagree => ?_⟩
  · rw [Program.items, itemsFrom, if_neg (Nat.not_lt.2 hempty)]
  · exact (itemsFrom_tiles hstart.le hstop).tiling hstart hstop
  · exact itemsFrom_congr hagree

/-- A word that is no opcode and a push without its operand, in a range past the end of the code. -/
theorem decoded_items_tile_range_cut_off :
    let p : Program := ⟨#[153, 2], #[], #[]⟩
    p.items ⟨0, 10⟩ = [.unknown 0 153, .truncated 1 .push] ∧
      Tiling p.code 0 2 (p.items ⟨0, 10⟩) ∧ p.items ⟨2, 10⟩ = [] := by
  intro p
  have hfirst : itemAt? p.code 0 2 = some (.unknown 0 153) := by decide
  have hsecond : itemAt? p.code 1 2 = some (.truncated 1 .push) := by decide
  refine ⟨?_, (decoded_items_tile_range p ⟨0, 10⟩).2.1 (by decide),
    (decoded_items_tile_range p ⟨2, 10⟩).1 (by decide)⟩
  change itemsFrom p.code 0 2 = _
  simp [itemsFrom, hfirst, hsecond, Item.words]

end BlockMachine
