import BlockMachine.Program.Listing
import BlockMachine.Proofs.Scanning
import BlockMachine.Proofs.TiledRanges

/-! # Listings tell programs apart

A listing is made for a human reader, but nothing that it shows is lost in it.  Reading it back goes
from the front to the end: each part of the text stops at a character that it cannot hold itself, so
of two listings that are the same the parts are the same too.

* `run_append_inj` — a run of characters and what follows it;
* `Item.name`, `Program.itemTail` — the first word of an item, and what stands behind it;
* `words_of_itemText` — the words of an item can be read off its text, whatever notes it has;
* `itemLines_append_inj`, `tableLines_inj`, `poolLines_append_inj` — the same for the lines of a
  block, of the table and of the constants;
* `Program.words` — the code words of a range, cut off at the end of the code.
-/

namespace BlockMachine

/-! ## Runs of characters -/

/-- Where two texts start with runs of the same kind that end there, the runs are the same. -/
theorem run_append_inj {kind : Char → Bool} {run run' rest rest' : List Char}
    (hrun : ∀ c ∈ run, kind c) (hrun' : ∀ c ∈ run', kind c)
    (hrest : ∀ c ∈ rest.head?, kind c = false) (hrest' : ∀ c ∈ rest'.head?, kind c = false)
    (h : run ++ rest = run' ++ rest') : run = run' ∧ rest = rest' := by
  have hfront : run = run' := by
    rw [← takeWhile_append_of_head hrun hrest, h, takeWhile_append_of_head hrun' hrest']
  subst hfront
  exact ⟨rfl, List.append_cancel_left h⟩

/-- Lines are read off one after the other. -/
theorem line_append_inj {line line' rest rest' : List Char} (hline : '\n' ∉ line)
    (hline' : '\n' ∉ line') (h : line ++ '\n' :: rest = line' ++ '\n' :: rest') :
    line = line' ∧ rest = rest' := by
  have hkind : ∀ {l : List Char}, '\n' ∉ l → ∀ c ∈ l, (c != '\n') = true := by
    intro l hl c hc
    simp only [bne_iff_ne]
    rintro rfl
    exact hl hc
  have hsplit := run_append_inj (hkind hline) (hkind hline') (by simp) (by simp) h
  simpa using hsplit

/-! ## Numbers -/

namespace Numeral

theorem mem_toDigits {base n : Nat} {c : Char} (hbase : 1 < base) (h : c ∈ Nat.toDigits base n) :
    ∃ d < base, c = d.digitChar := by
  induction n using Nat.strongRecOn with
  | ind n ih =>
    by_cases hn : n < base
    · rw [Nat.toDigits_of_lt_base hn, List.mem_singleton] at h
      exact ⟨n, hn, h⟩
    · rw [Nat.toDigits_of_base_le hbase (by omega), List.mem_append, List.mem_singleton] at h
      cases h with
      | inl h => exact ih (n / base) (Nat.div_lt_self (by omega) hbase) h
      | inr h => exact ⟨n % base, Nat.mod_lt n (by omega), h⟩

theorem digitChar_inj {d e : Nat} (hd : d < 16) (he : e < 16) (h : d.digitChar = e.digitChar) :
    d = e := by
  have hall : ∀ d e : Fin 16, d.val.digitChar = e.val.digitChar → d = e := by decide
  exact congrArg Fin.val (hall ⟨d, hd⟩ ⟨e, he⟩ h)

/-- The last digit is the remainder and the others are the digits of the quotient, so that the
number can be put together again. -/
theorem toDigits_inj {base m n : Nat} (hbase : 1 < base) (hsmall : base ≤ 16)
    (h : Nat.toDigits base m = Nat.toDigits base n) : m = n := by
  have hdigit : ∀ {d e : Nat}, d < base → e < base → d.digitChar = e.digitChar → d = e := by
    intro d e hd he
    exact digitChar_inj (by omega) (by omega)
  have hlong : ∀ {n d : Nat}, base ≤ n → Nat.toDigits base n ≠ [d.digitChar] := by
    intro n d hn heq
    rw [Nat.toDigits_of_base_le hbase hn] at heq
    have hlength := congrArg List.length heq
    simp at hlength
  induction m using Nat.strongRecOn generalizing n with
  | ind m ih =>
    by_cases hm : m < base <;> by_cases hn : n < base
    · rw [Nat.toDigits_of_lt_base hm, Nat.toDigits_of_lt_base hn, List.singleton_inj] at h
      exact hdigit hm hn h
    · rw [Nat.toDigits_of_lt_base hm] at h
      exact absurd h.symm (hlong (by omega))
    · rw [Nat.toDigits_of_lt_base hn] at h
      exact absurd h (hlong (by omega))
    · rw [Nat.toDigits_of_base_le hbase (Nat.le_of_not_lt hm),
        Nat.toDigits_of_base_le hbase (Nat.le_of_not_lt hn)] at h
      -- The last digits are alone at the end, so what stands in front of them is the same as well.
      obtain ⟨hquotient, hlast⟩ := List.append_inj' h rfl
      have hq := ih (m / base) (Nat.div_lt_self (by omega) hbase) hquotient
      have hr := hdigit (Nat.mod_lt m (by omega)) (Nat.mod_lt n (by omega))
        (List.singleton_inj.1 hlast)
      rw [← Nat.div_add_mod m base, hq, hr, Nat.div_add_mod]

theorem newline_notMem_toDigits {base : Nat} (hbase : 1 < base) (hsmall : base ≤ 16) (n : Nat) :
    '\n' ∉ Nat.toDigits base n := by
  intro h
  obtain ⟨d, hd, hchar⟩ := mem_toDigits hbase h
  have hall : ∀ d : Fin 16, '\n' ≠ d.val.digitChar := by decide
  exact hall ⟨d, by omega⟩ hchar

theorem isDigit_toDigits (n : Nat) : ∀ c ∈ Nat.toDigits 10 n, c.isDigit := by
  intro c hc
  exact Nat.isDigit_of_mem_toDigits (by decide) (by decide) hc

theorem isDigit_padded (width n : Nat) : ∀ c ∈ (padded width n).toList, c.isDigit := by
  intro c hc
  simp only [padded, String.toList_ofList, List.leftpad, List.mem_append, List.mem_replicate] at hc
  obtain ⟨-, rfl⟩ | hc := hc
  · decide
  · exact isDigit_toDigits n c hc

theorem toDigits_append_inj {m n : Nat} {rest rest' : List Char}
    (hrest : ∀ c ∈ rest.head?, c.isDigit = false) (hrest' : ∀ c ∈ rest'.head?, c.isDigit = false)
    (h : Nat.toDigits 10 m ++ rest = Nat.toDigits 10 n ++ rest') : m = n ∧ rest = rest' := by
  obtain ⟨hdigits, hrests⟩ :=
    run_append_inj (isDigit_toDigits m) (isDigit_toDigits n) hrest hrest' h
  exact ⟨toDigits_inj (by decide) (by decide) hdigits, hrests⟩

end Numeral

/-! ## Constants and ranges -/

namespace Value

theorem toList_text_integer (n : Int32) :
    (integer n).text.toList =
      if 0 ≤ n.toInt then Nat.toDigits 10 n.toInt.toNat
      else '-' :: Nat.toDigits 10 (-n.toInt).toNat := by
  simp only [text, Int.toString_eq_repr, Int.repr_eq_if]
  split <;> simp [Nat.repr_eq_ofList_toDigits]

theorem newline_notMem_text (n : Int32) : '\n' ∉ (integer n).text.toList := by
  have hdigits : ∀ n, '\n' ∉ Nat.toDigits 10 n :=
    Numeral.newline_notMem_toDigits (by decide) (by decide)
  rw [toList_text_integer]
  split <;> simp [hdigits]

theorem text_integer_inj {m n : Int32} (h : (integer m).text = (integer n).text) : m = n := by
  have hsign : ∀ k l, '-' :: Nat.toDigits 10 k ≠ Nat.toDigits 10 l := by
    intro k l heq
    have hminus : '-' ∈ Nat.toDigits 10 l := heq ▸ List.mem_cons_self
    exact absurd (Numeral.isDigit_toDigits l '-' hminus) (by decide)
  have hdigits : ∀ {k l : Nat}, Nat.toDigits 10 k = Nat.toDigits 10 l → k = l :=
    Numeral.toDigits_inj (by decide) (by decide)
  have hlists := congrArg String.toList h
  rw [toList_text_integer, toList_text_integer] at hlists
  have hvalue : m.toInt = n.toInt := by
    -- Numbers of different sign differ in the first character.
    split at hlists <;> split at hlists
    · have := hdigits hlists
      omega
    · exact absurd hlists.symm (hsign _ _)
    · exact absurd hlists (hsign _ _)
    · have := hdigits (List.cons.inj hlists).2
      omega
  exact Int32.toInt_inj.1 hvalue

end Value

namespace Range

theorem toList_text (r : Range) :
    r.text.toList =
      '[' :: (Nat.toDigits 10 r.start ++ ',' :: ' ' :: (Nat.toDigits 10 r.stop ++ [')'])) := by
  have htext : r.text = "[" ++ toString r.start ++ ", " ++ toString r.stop ++ ")" := rfl
  simp [htext]

theorem newline_notMem_text (r : Range) : '\n' ∉ r.text.toList := by
  have hdigits : ∀ n, '\n' ∉ Nat.toDigits 10 n :=
    Numeral.newline_notMem_toDigits (by decide) (by decide)
  simp [toList_text, hdigits]

theorem text_append_inj {r r' : Range} {rest rest' : List Char}
    (h : r.text.toList ++ rest = r'.text.toList ++ rest') : r = r' ∧ rest = rest' := by
  obtain ⟨start, stop⟩ := r
  obtain ⟨start', stop'⟩ := r'
  simp only [toList_text, List.cons_append, List.append_assoc, List.cons.injEq, true_and] at h
  obtain ⟨hstart, hmid⟩ := Numeral.toDigits_append_inj (by simp) (by simp) h
  simp only [List.cons.injEq, true_and] at hmid
  obtain ⟨hstop, hend⟩ := Numeral.toDigits_append_inj (by simp) (by simp) hmid
  simp only [List.nil_append, List.cons.injEq, true_and] at hend
  exact ⟨by rw [hstart, hstop], hend⟩

end Range

/-! ## Items -/

namespace Opcode

theorem mem_all (op : Opcode) : op ∈ all := by
  simpa [Mnemonic.all] using (Mnemonic.op op).mem_all

theorem text_inj {op op' : Opcode} (h : op.text = op'.text) : op = op' := by
  have hall : ∀ op ∈ all, ∀ op' ∈ all, op.text = op'.text → op = op' := by decide +kernel
  exact hall op op.mem_all op' op'.mem_all h

theorem text_visible (op : Opcode) : ' ' ∉ op.text.toList ∧ '\n' ∉ op.text.toList := by
  have hall : ∀ op ∈ all, ' ' ∉ op.text.toList ∧ '\n' ∉ op.text.toList := by decide +kernel
  exact hall op op.mem_all

theorem text_ne_word (op : Opcode) : op.text ≠ ".word" := by
  have hall : ∀ op ∈ all, op.text ≠ ".word" := by decide +kernel
  exact hall op op.mem_all

end Opcode

/-- What an item starts with: its opcode, or the mark of a word that is none. -/
def Item.name : Item → String
  | instruction _ op _ | truncated _ op => op.text
  | unknown _ _ => ".word"

theorem Item.name_visible (item : Item) : ' ' ∉ item.name.toList ∧ '\n' ∉ item.name.toList := by
  cases item with
  | instruction _ op _ | truncated _ op => exact op.text_visible
  | unknown _ _ => simp [name]

namespace Program

/-- What stands behind the name of an item, from a blank on. -/
def itemTail (p : Program) : Item → String
  | .instruction _ _ none => ""
  | .instruction _ op (some operand) => " " ++ toString operand ++ p.operandNote op operand
  | .unknown _ word => " " ++ Numeral.hex word
  | .truncated _ _ => " <missing operand>"

variable {p q : Program}

theorem toList_itemText (item : Item) :
    (p.itemText item).toList = item.name.toList ++ (p.itemTail item).toList := by
  rw [← String.toList_append]
  congr 1
  cases item with
  | instruction offset op operand =>
    cases operand with
    | none => exact String.append_empty.symm
    | some operand =>
      simp only [itemTail, ← String.append_assoc]
      rfl
  | unknown offset word =>
    simp only [itemTail, Item.name, ← String.append_assoc]
    rfl
  | truncated offset op => rfl

theorem operandNote_cases (op : Opcode) (operand : Nat) :
    p.operandNote op operand = "" ∨
      (∃ v ∈ p.constants, p.operandNote op operand = "  ; " ++ v.text) ∨
      ∃ r ∈ p.blocks, p.operandNote op operand = "  ; " ++ r.text := by
  simp only [operandNote]
  split
  · cases hv : p.constants[operand]? with
    | none => exact .inl rfl
    | some v => exact .inr (.inl ⟨v, Array.mem_of_getElem? hv, rfl⟩)
  · cases hr : p.blocks[operand]? with
    | none => exact .inl rfl
    | some r => exact .inr (.inr ⟨r, Array.mem_of_getElem? hr, rfl⟩)
  · exact .inl rfl

/-- A note cannot be taken for further digits. -/
theorem head?_operandNote (op : Opcode) (operand : Nat) :
    ∀ c ∈ (p.operandNote op operand).toList.head?, c.isDigit = false := by
  obtain hnote | ⟨v, -, hnote⟩ | ⟨r, -, hnote⟩ := p.operandNote_cases op operand
  all_goals
    rw [hnote]
    simp

/-- All constants of the program are integers. -/
def HasIntegers (p : Program) : Prop :=
  ∀ v ∈ p.constants, ∃ n, v = .integer n

theorem newline_notMem_operandNote (h : p.HasIntegers) (op : Opcode) (operand : Nat) :
    '\n' ∉ (p.operandNote op operand).toList := by
  obtain hnote | ⟨v, hv, hnote⟩ | ⟨r, -, hnote⟩ := p.operandNote_cases op operand
  · simp [hnote]
  · obtain ⟨n, rfl⟩ := h v hv
    simp [hnote, Value.newline_notMem_text]
  · simp [hnote, Range.newline_notMem_text]

theorem newline_notMem_itemText (h : p.HasIntegers) (item : Item) :
    '\n' ∉ (p.itemText item).toList := by
  have hdecimal : ∀ n, '\n' ∉ Nat.toDigits 10 n :=
    Numeral.newline_notMem_toDigits (by decide) (by decide)
  have hhex : ∀ n, '\n' ∉ Nat.toDigits 16 n :=
    Numeral.newline_notMem_toDigits (by decide) (by decide)
  rw [toList_itemText, List.mem_append, not_or]
  refine ⟨item.name_visible.2, ?_⟩
  cases item with
  | instruction _ op operand =>
    cases operand with
    | none => simp [itemTail]
    | some operand => simp [itemTail, hdecimal, newline_notMem_operandNote h]
  | unknown _ word => simp [itemTail, Numeral.hex, hhex]
  | truncated _ op => simp [itemTail]

/-- The name of an item ends at the first blank. -/
theorem itemText_inj {i j : Item} (h : p.itemText i = q.itemText j) :
    i.name = j.name ∧ (p.itemTail i).toList = (q.itemTail j).toList := by
  have hname : ∀ item : Item, ∀ c ∈ item.name.toList, (c != ' ') = true := by
    intro item c hc
    simp only [bne_iff_ne]
    rintro rfl
    exact item.name_visible.1 hc
  have htail : ∀ (p : Program) (item : Item), ∀ c ∈ (p.itemTail item).toList.head?,
      (c != ' ') = false := by
    intro p item
    cases item with
    | instruction _ op operand => cases operand <;> simp [itemTail]
    | unknown _ word => simp [itemTail]
    | truncated _ op => simp [itemTail]
  have hlists := congrArg String.toList h
  rw [toList_itemText, toList_itemText] at hlists
  obtain ⟨hnames, htails⟩ :=
    run_append_inj (hname i) (hname j) (htail p i) (htail q j) hlists
  exact ⟨String.toList_inj.1 hnames, htails⟩

/-- An operand is no missing operand. -/
theorem operand_ne_missing (op : Opcode) (operand : Nat) :
    (" " ++ toString operand ++ p.operandNote op operand).toList ≠ " <missing operand>".toList := by
  intro h
  obtain ⟨d, digits, hdigits⟩ := List.exists_cons_of_ne_nil (@Nat.toDigits_ne_nil operand 10)
  have hd : d.isDigit := Numeral.isDigit_toDigits operand d (hdigits ▸ List.mem_cons_self)
  simp [hdigits] at h
  rw [h.1] at hd
  exact absurd hd (by decide)

theorem operand_inj {op op' : Opcode} {m n : Nat}
    (h : (" " ++ toString m ++ p.operandNote op m).toList =
      (" " ++ toString n ++ q.operandNote op' n).toList) : m = n := by
  simp only [String.toList_append, Nat.toString_eq_ofList_toDigits, String.toList_ofList,
    List.append_assoc] at h
  have hdigits := List.append_cancel_left h
  exact (Numeral.toDigits_append_inj (head?_operandNote op m) (head?_operandNote op' n) hdigits).1

/-- The notes of an item depend on the program that it stands in, but its words can be read off its
text without them. -/
theorem words_of_itemText {i j : Item} (h : p.itemText i = q.itemText j) : i.words = j.words := by
  obtain ⟨hname, htail⟩ := itemText_inj h
  -- The names say which of the items are words without an opcode.  Where both have the same opcode,
  -- what is left to compare are the operands; a missing one counts for no word.
  cases i with
  | unknown _ word =>
    cases j with
    | unknown _ word' =>
      simp only [itemTail, Numeral.hex, String.toList_append, String.toList_ofList] at htail
      have hdigits := List.append_cancel_left (List.append_cancel_left htail)
      simp [Item.words, Numeral.toDigits_inj (by decide) (by decide) hdigits]
    | instruction _ op _ | truncated _ op => exact absurd hname.symm op.text_ne_word
  | instruction _ op operand =>
    cases j with
    | unknown _ _ => exact absurd hname op.text_ne_word
    | instruction _ op' operand' =>
      obtain rfl := Opcode.text_inj hname
      cases operand <;> cases operand'
      · rfl
      · simp [itemTail] at htail
      · simp [itemTail] at htail
      · rw [operand_inj htail]
        rfl
    | truncated _ op' =>
      obtain rfl := Opcode.text_inj hname
      cases operand with
      | none => rfl
      | some operand => exact absurd htail (operand_ne_missing op operand)
  | truncated _ op =>
    cases j with
    | unknown _ _ => exact absurd hname op.text_ne_word
    | instruction _ op' operand =>
      obtain rfl := Opcode.text_inj hname
      cases operand with
      | none => rfl
      | some operand => exact absurd htail.symm (operand_ne_missing op operand)
    | truncated _ op' => rw [Item.words, Item.words, Opcode.text_inj hname]

/-! ## The lines of a block -/

theorem toList_itemLine (item : Item) :
    (p.itemLine item).toList =
      ' ' :: ' ' :: ((Numeral.padded 4 item.offset).toList ++
        ' ' :: ' ' :: ((p.itemText item).toList ++ ['\n'])) := by
  have htext : p.itemLine item =
    "  " ++ Numeral.padded 4 item.offset ++ "  " ++ p.itemText item ++ "\n" := rfl
  simp [htext]

theorem itemLine_append_inj (hp : p.HasIntegers) (hq : q.HasIntegers) {i j : Item}
    {rest rest' : List Char}
    (h : (p.itemLine i).toList ++ rest = (q.itemLine j).toList ++ rest') :
    i.words = j.words ∧ rest = rest' := by
  simp only [toList_itemLine, List.cons_append, List.append_assoc, List.nil_append,
    List.cons.injEq, true_and] at h
  obtain ⟨-, htexts⟩ := run_append_inj (Numeral.isDigit_padded 4 i.offset)
    (Numeral.isDigit_padded 4 j.offset) (by simp) (by simp) h
  simp only [List.cons.injEq, true_and] at htexts
  obtain ⟨htext, hrest⟩ :=
    line_append_inj (newline_notMem_itemText hp i) (newline_notMem_itemText hq j) htexts
  exact ⟨words_of_itemText (String.toList_inj.1 htext), hrest⟩

def itemLines (p : Program) (items : List Item) : List Char :=
  items.flatMap fun item => (p.itemLine item).toList

theorem itemLines_cons (item : Item) (items : List Item) :
    p.itemLines (item :: items) = (p.itemLine item).toList ++ p.itemLines items :=
  List.flatMap_cons

theorem head?_itemLines_cons (item : Item) (items : List Item) (rest : List Char) :
    (p.itemLines (item :: items) ++ rest).head? = some ' ' := by
  simp [itemLines_cons, toList_itemLine]

/-- The lines of a block go on as long as they start with a blank. -/
theorem itemLines_append_inj (hp : p.HasIntegers) (hq : q.HasIntegers) {items items' : List Item}
    {rest rest' : List Char} (hrest : rest.head? ≠ some ' ') (hrest' : rest'.head? ≠ some ' ')
    (h : p.itemLines items ++ rest = q.itemLines items' ++ rest') :
    items.flatMap Item.words = items'.flatMap Item.words ∧ rest = rest' := by
  induction items generalizing items' with
  | nil =>
    cases items' with
    | nil => exact ⟨rfl, h⟩
    | cons item' items' =>
      -- Here one block has ended, and the other has a line left.
      have hblank := head?_itemLines_cons (p := q) item' items' rest'
      rw [← h] at hblank
      exact absurd hblank hrest
  | cons item items ih =>
    cases items' with
    | nil =>
      have hblank := head?_itemLines_cons (p := p) item items rest
      rw [h] at hblank
      exact absurd hblank hrest'
    | cons item' items' =>
      rw [itemLines_cons, itemLines_cons, List.append_assoc, List.append_assoc] at h
      obtain ⟨hwords, hlines⟩ := itemLine_append_inj hp hq h
      obtain ⟨hitems, hrests⟩ := ih hlines
      rw [List.flatMap_cons, List.flatMap_cons, hwords, hitems]
      exact ⟨rfl, hrests⟩

/-- The code words of a range, cut off at the end of the code. -/
def words (p : Program) (r : Range) : List Nat :=
  (p.code.extract r.start (min r.stop p.code.size)).toList

theorem flatMap_words_items (p : Program) (r : Range) :
    (p.items r).flatMap Item.words = p.words r := by
  have hstop : min r.stop p.code.size ≤ p.code.size := Nat.min_le_right _ _
  by_cases hstart : r.start ≤ min r.stop p.code.size
  · exact (itemsFrom_tiles hstart hstop).flatMap_words hstop
  · rw [items, itemsFrom, if_neg (by omega), words, Array.extract_empty_of_stop_le_start (by omega)]
    rfl

/-- What the first line of a block has in front of its range. -/
def blockTitle (index : Nat) : String :=
  "block[" ++ toString index ++ "]" ++ (if index = 0 then " (entry)" else "") ++ " "

theorem toList_blockLines (r : Range) (index : Nat) :
    (p.blockLines r index).toList =
      '\n' :: ((blockTitle index).toList ++
        (r.text.toList ++ ':' :: '\n' :: p.itemLines (p.items r))) := by
  have htext : p.blockLines r index =
      "\nblock[" ++ toString index ++ "]" ++ (if index = 0 then " (entry)" else "") ++ " " ++
        r.text ++ ":\n" ++ String.join ((p.items r).map p.itemLine) := rfl
  have hlines : (String.join ((p.items r).map p.itemLine)).toList = p.itemLines (p.items r) := by
    simp [itemLines, String.toList_join, List.flatMap_map]
  simp [htext, hlines, blockTitle]

theorem blockLines_append_inj (hp : p.HasIntegers) (hq : q.HasIntegers) {r r' : Range}
    {index : Nat} {rest rest' : List Char} (hrest : rest.head? ≠ some ' ')
    (hrest' : rest'.head? ≠ some ' ')
    (h : (p.blockLines r index).toList ++ rest = (q.blockLines r' index).toList ++ rest') :
    r = r' ∧ p.words r = q.words r' ∧ rest = rest' := by
  simp only [toList_blockLines, List.cons_append, List.append_assoc, List.cons.injEq,
    true_and] at h
  obtain ⟨hrange, hlines⟩ := Range.text_append_inj (List.append_cancel_left h)
  simp only [List.cons.injEq, true_and] at hlines
  obtain ⟨hwords, hrests⟩ := itemLines_append_inj hp hq hrest hrest' hlines
  rw [flatMap_words_items, flatMap_words_items] at hwords
  exact ⟨hrange, hwords, hrests⟩

/-! ## The table and the constants -/

/-- The lines of numbered entries, from a number on. -/
def numberedLines {α : Type} (line : α → Nat → String) (index : Nat) : List α → List Char
  | [] => []
  | a :: as => (line a index).toList ++ numberedLines line (index + 1) as

theorem toList_join_mapIdx {α : Type} (line : α → Nat → String) (index : Nat) (as : List α) :
    (String.join (as.mapIdx fun i a => line a (index + i))).toList =
      numberedLines line index as := by
  induction as generalizing index with
  | nil => simp [numberedLines]
  | cons a as ih =>
    have hnext : (fun i a => line a (index + (i + 1))) = fun i a => line a (index + 1 + i) := by
      funext i a
      rw [Nat.add_assoc, Nat.add_comm 1]
    rw [List.mapIdx_cons, String.join_cons, String.toList_append, hnext, ih]
    rfl

theorem numberedLines_congr {α : Type} {line line' : α → Nat → String} {as : List α}
    (h : ∀ a ∈ as, ∀ i, line a i = line' a i) (index : Nat) :
    numberedLines line index as = numberedLines line' index as := by
  induction as generalizing index with
  | nil => rfl
  | cons a as ih =>
    rw [List.forall_mem_cons] at h
    rw [numberedLines, numberedLines, h.1, ih h.2]

theorem head?_blockLines (index : Nat) (rs : List Range) :
    (numberedLines p.blockLines index rs).head? ≠ some ' ' := by
  cases rs with
  | nil => simp [numberedLines]
  | cons r rs => simp [numberedLines, toList_blockLines]

/-- The table ends where the text ends. -/
theorem tableLines_inj (hp : p.HasIntegers) (hq : q.HasIntegers) {rs rs' : List Range} {index : Nat}
    (h : numberedLines p.blockLines index rs = numberedLines q.blockLines index rs') :
    rs = rs' ∧ ∀ r ∈ rs, p.words r = q.words r := by
  induction rs generalizing rs' index with
  | nil =>
    cases rs' with
    | nil => simp
    | cons r' rs' => simp [numberedLines, toList_blockLines] at h
  | cons r rs ih =>
    cases rs' with
    | nil => simp [numberedLines, toList_blockLines] at h
    | cons r' rs' =>
      rw [numberedLines, numberedLines] at h
      obtain ⟨rfl, hwords, hrests⟩ :=
        blockLines_append_inj hp hq (head?_blockLines _ _) (head?_blockLines _ _) h
      obtain ⟨rfl, hrest⟩ := ih hrests
      exact ⟨rfl, List.forall_mem_cons.2 ⟨hwords, hrest⟩⟩

theorem constantLine_append_inj {m n : Int32} {index : Nat} {rest rest' : List Char}
    (h : (constantLine (.integer m) index).toList ++ rest =
      (constantLine (.integer n) index).toList ++ rest') : m = n ∧ rest = rest' := by
  have hline : ∀ v, (constantLine v index).toList =
      ("  [" ++ toString index ++ "] ").toList ++ (v.text.toList ++ ['\n']) := by
    intro v
    have htext : constantLine v index = "  [" ++ toString index ++ "] " ++ v.text ++ "\n" := rfl
    rw [htext, String.toList_append, String.toList_append, List.append_assoc]
    rfl
  simp only [hline, List.append_assoc, List.singleton_append] at h
  obtain ⟨htext, hrest⟩ := line_append_inj (Value.newline_notMem_text m)
    (Value.newline_notMem_text n) (List.append_cancel_left h)
  exact ⟨Value.text_integer_inj (String.toList_inj.1 htext), hrest⟩

/-- How many constants there are is known before they are read. -/
theorem poolLines_append_inj {vs vs' : List Value} {index : Nat} {rest rest' : List Char}
    (hvs : ∀ v ∈ vs, ∃ n, v = .integer n) (hvs' : ∀ v ∈ vs', ∃ n, v = .integer n)
    (hlength : vs.length = vs'.length)
    (h : numberedLines constantLine index vs ++ rest =
      numberedLines constantLine index vs' ++ rest') : vs = vs' ∧ rest = rest' := by
  induction vs generalizing vs' index with
  | nil =>
    obtain rfl := List.eq_nil_of_length_eq_zero hlength.symm
    exact ⟨rfl, h⟩
  | cons v vs ih =>
    obtain ⟨v', vs', rfl⟩ := List.exists_cons_of_length_eq_add_one hlength.symm
    rw [List.forall_mem_cons] at hvs hvs'
    obtain ⟨⟨n, rfl⟩, hvs⟩ := hvs
    obtain ⟨⟨n', rfl⟩, hvs'⟩ := hvs'
    rw [numberedLines, numberedLines, List.append_assoc, List.append_assoc] at h
    obtain ⟨rfl, hlines⟩ := constantLine_append_inj h
    obtain ⟨rfl, hrest⟩ := ih hvs hvs' (Nat.succ_injective hlength) hlines
    exact ⟨rfl, hrest⟩

theorem toList_listing (p : Program) :
    p.listing.toList =
      "constants (".toList ++ (Nat.toDigits 10 p.constants.size ++ ')' :: ':' :: '\n' ::
        (numberedLines constantLine 0 p.constants.toList ++
          numberedLines p.blockLines 0 p.blocks.toList)) := by
  have htext : p.listing =
      "constants (" ++ toString p.constants.size ++ "):\n" ++
        String.join (p.constants.toList.mapIdx fun i v => constantLine v (0 + i)) ++
        String.join (p.blocks.toList.mapIdx fun i r => p.blockLines r (0 + i)) := by
    simp only [Nat.zero_add]
    rfl
  rw [htext]
  simp only [String.toList_append, toList_join_mapIdx, Nat.toString_eq_ofList_toDigits,
    String.toList_ofList, List.append_assoc]
  rfl

theorem parts_of_listing (hp : p.HasIntegers) (hq : q.HasIntegers) (h : p.listing = q.listing) :
    p.constants = q.constants ∧ p.blocks = q.blocks ∧ ∀ r ∈ p.blocks, p.words r = q.words r := by
  have hlists := congrArg String.toList h
  rw [toList_listing, toList_listing] at hlists
  obtain ⟨hsize, hlines⟩ :=
    Numeral.toDigits_append_inj (by simp) (by simp) (List.append_cancel_left hlists)
  simp only [List.cons.injEq, true_and] at hlines
  have hints : ∀ {p : Program}, p.HasIntegers → ∀ v ∈ p.constants.toList, ∃ n, v = .integer n := by
    intro p hp v hv
    exact hp v (Array.mem_toList_iff.1 hv)
  obtain ⟨hconstants, htable⟩ := poolLines_append_inj (hints hp) (hints hq) hsize hlines
  obtain ⟨hblocks, hwords⟩ := tableLines_inj hp hq htable
  refine ⟨Array.toList_inj.1 hconstants, Array.toList_inj.1 hblocks, ?_⟩
  intro r hr
  exact hwords r (Array.mem_toList_iff.2 hr)

/-- What a range decodes to depends on its words alone. -/
theorem items_of_words {r : Range} (h : p.words r = q.words r) : p.items r = q.items r := by
  have hlength := congrArg List.length h
  simp only [words, Array.length_toList, Array.size_extract] at hlength
  -- The code may end at different places behind the range, but not within it.
  by_cases hempty : min r.stop p.code.size ≤ r.start
  · rw [items, items, itemsFrom, itemsFrom, if_neg (by omega), if_neg (by omega)]
  · have hstop : min r.stop p.code.size = min r.stop q.code.size := by omega
    rw [items, items, ← hstop]
    refine itemsFrom_congr ?_
    intro offset hstart hend
    have hword := congrArg (·[offset - r.start]?) h
    simp only [words, Array.getElem?_toList, Array.getElem?_extract, ← hstop] at hword
    rwa [if_pos (by omega), if_pos (by omega), Nat.add_sub_cancel' hstart] at hword

theorem listing_of_parts (hconstants : p.constants = q.constants) (hblocks : p.blocks = q.blocks)
    (hwords : ∀ r ∈ p.blocks, p.words r = q.words r) : p.listing = q.listing := by
  have hline : p.itemLine = q.itemLine := by
    funext item
    simp only [itemLine, itemText, operandNote, hconstants, hblocks]
  have htable : ∀ r ∈ p.blocks.toList, ∀ i, p.blockLines r i = q.blockLines r i := by
    intro r hr i
    apply String.toList_inj.1
    rw [toList_blockLines, toList_blockLines, itemLines, itemLines, hline,
      items_of_words (hwords r (Array.mem_toList_iff.1 hr))]
  apply String.toList_inj.1
  rw [toList_listing, toList_listing, numberedLines_congr htable, hconstants, hblocks]

end Program

/-- Listings lose nothing.  Two programs whose constants are integers have the same listing exactly
when they have the same constants, the same table and, in every block of it, the same code words,
whether these decode to instructions or not.  What lies outside of all blocks is not shown. -/
theorem same_listing_iff_same_parts (p q : Program) (hp : ∀ v ∈ p.constants, ∃ n, v = .integer n)
    (hq : ∀ v ∈ q.constants, ∃ n, v = .integer n) :
    p.listing = q.listing ↔
      p.constants = q.constants ∧ p.blocks = q.blocks ∧
        ∀ r ∈ p.blocks,
          p.code.extract r.start (min r.stop p.code.size) =
            q.code.extract r.start (min r.stop q.code.size) := by
  constructor
  · intro h
    obtain ⟨hconstants, hblocks, hwords⟩ := Program.parts_of_listing hp hq h
    refine ⟨hconstants, hblocks, ?_⟩
    intro r hr
    exact Array.toList_inj.1 (hwords r hr)
  · intro h
    obtain ⟨hconstants, hblocks, hwords⟩ := h
    refine Program.listing_of_parts hconstants hblocks ?_
    intro r hr
    exact congrArg Array.toList (hwords r hr)

/-- A block with a word that is no opcode and a jump that is cut off.  Behind it stands the word
that the jump would need: it is shown, in the last of three blocks, or it is not. -/
theorem same_listing_iff_same_parts_cut_off :
    let constants : Array Value := #[.integer (-7)]
    let table : Array Range := #[⟨0, 4⟩, ⟨3, 1⟩, ⟨3, 20⟩]
    let program (last : Nat) (blocks : Array Range) : Program :=
      ⟨#[2, 0, 153, 5, last], constants, blocks⟩
    (∀ v ∈ constants, ∃ n, v = .integer n) ∧
      (program 99 #[⟨0, 4⟩]).listing = (program 98 #[⟨0, 4⟩]).listing ∧
      (program 99 table).listing ≠ (program 98 table).listing := by
  intro constants table program
  have hconstants : ∀ v ∈ constants, ∃ n, v = .integer n := by simp [constants]
  refine ⟨hconstants, ?_, ?_⟩
  · apply (same_listing_iff_same_parts (program 99 #[⟨0, 4⟩]) (program 98 #[⟨0, 4⟩]) hconstants
      hconstants).2
    simp [program]
  · intro h
    obtain ⟨-, -, hwords⟩ := (same_listing_iff_same_parts (program 99 table) (program 98 table)
      hconstants hconstants).1 h
    have hlast := hwords ⟨3, 20⟩ (by simp [program, table])
    simp [program] at hlast

end BlockMachine
