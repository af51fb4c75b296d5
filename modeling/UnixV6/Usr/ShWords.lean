import UnixV6.Usr.ShSyntax

/-!
# The words of a command (`usr/sh.c`)

The tree of a command points into the line. `nulterminate` ends each word with a `NUL`, which it
writes over the character behind the word. No word loses a character by the `NUL` of another: two
words have a blank or a symbol between them.
-/

namespace UnixV6.Sh

open Usr

variable {s s' : List Chr} {t cmd : Cmd} {w w' : Word} {ts : List Token}

/-- The characters of a word. -/
def Word.text (w : Word) : List Chr := w.q.take (w.q.length - w.eq.length)

/-- The words of a tree: the arguments, and the names of files. -/
def Cmd.words : Cmd → List Word
  | exec argv => argv
  | redir cmd file _ _ => cmd.words ++ [file]
  | pipe left right => left.words ++ right.words
  | list left right => left.words ++ right.words
  | back cmd => cmd.words

/-! ## Words of a line -/

/-- A word of the line `s`: it begins where no blank and no symbol is, and goes on as far as there is
none. -/
structure Word.Valid (s : List Chr) (w : Word) : Prop where
  suffix : w.q <:+ s
  eq_wordEnd : w.eq = wordEnd w.q
  begins : ∃ c q, w.q = c :: q ∧ c ∉ whitespace ∧ c ∉ symbols

theorem wordEnd_suffix (s : List Chr) : wordEnd s <:+ s := List.dropWhile_suffix _

theorem skip_suffix (s : List Chr) : skip s <:+ s := List.dropWhile_suffix _

theorem Word.Valid.mono (h : w.Valid s) (hs : s <:+ s') : w.Valid s' :=
  { h with suffix := h.suffix.trans hs }

theorem Word.Valid.length_eq_lt (h : w.Valid s) : w.eq.length < w.q.length := by
  obtain ⟨c, q, hq, hblank, hsym⟩ := h.begins
  rw [h.eq_wordEnd, hq]
  exact length_wordEnd_lt hblank hsym

/-- A word is what there is up to a blank or a symbol. -/
theorem Word.Valid.text_eq (h : w.Valid s) :
    w.text = w.q.takeWhile fun c => c ∉ whitespace ∧ c ∉ symbols := by
  have hsplit := List.takeWhile_append_dropWhile
    (p := fun c => decide (c ∉ whitespace ∧ c ∉ symbols)) (l := w.q)
  have hlen := congrArg List.length hsplit
  rw [List.length_append] at hlen
  rw [Word.text, h.eq_wordEnd, wordEnd, ← hlen, Nat.add_sub_cancel]
  exact (congrArg (List.take _) hsplit.symm).trans List.take_left

theorem Word.Valid.text_append (h : w.Valid s) : w.text ++ w.eq = w.q := by
  rw [h.text_eq, h.eq_wordEnd]
  exact List.takeWhile_append_dropWhile

theorem ps_suffix (s : List Chr) : (gettoken s).ps <:+ s := by
  cases hs : skip s with
  | nil => rw [gettoken_eq_nil hs]; exact List.nil_suffix
  | cons c t =>
    have ht : t <:+ s := (List.suffix_cons c t).trans (hs ▸ skip_suffix s)
    rw [gettoken, hs]
    dsimp only
    split_ifs
    · exact (skip_suffix t).trans ht
    · exact (skip_suffix _).trans ((List.tail_suffix t).trans ht)
    · exact (skip_suffix t).trans ht
    · exact (skip_suffix _).trans ((wordEnd_suffix _).trans (hs ▸ skip_suffix s))

/-- What `gettoken` says is a word is one, and what is left then begins behind it. -/
theorem valid_word (h : (gettoken s).ret = ascii 'a') :
    (gettoken s).word.Valid s ∧ (gettoken s).ps <:+ (gettoken s).eq := by
  cases hs : skip s with
  | nil =>
    rw [gettoken_eq_nil hs] at h
    exact absurd h (by decide)
  | cons c t =>
    have hsuffix : c :: t <:+ s := hs ▸ skip_suffix s
    have hblank := head_skip hs
    obtain ⟨hc, hret | ⟨-, hret⟩⟩ | ⟨hc, -⟩ := gettoken_ret hs
    · have ha : ∀ c ∈ symbols, c ≠ ascii 'a' := by decide
      exact absurd (hret.symm.trans h) (ha c hc)
    · exact absurd (hret.symm.trans h) (by decide)
    · have hsingle : c ∉ single := fun hmem => hc ((by decide : single ⊆ symbols) hmem)
      have hgt : c ≠ ascii '>' := fun heq => hc (heq ▸ by decide)
      have htok : gettoken s = ⟨ascii 'a', c :: t, wordEnd (c :: t), skip (wordEnd (c :: t))⟩ := by
        rw [gettoken, hs]
        dsimp only
        rw [if_neg hsingle, if_neg hgt]
      rw [htok]
      exact ⟨⟨hsuffix, rfl, c, t, rfl, hblank, hc⟩, skip_suffix _⟩

/-- Behind a word is a blank, a symbol or the end. -/
theorem head_wordEnd {c : Chr} (h : wordEnd s = c :: s') : c ∈ whitespace ∨ c ∈ symbols := by
  have hne : wordEnd s ≠ [] := by simp [h]
  have hend := List.head_dropWhile_not
    (fun c => decide (c ∉ whitespace ∧ c ∉ symbols)) hne
  have hhead : (wordEnd s).head hne = c := by simp [h]
  rw [← hhead]
  by_contra hno
  exact of_decide_eq_false hend (not_or.mp hno)

/-- A word that is not in front of another ends before that begins. -/
theorem Word.Valid.length_lt (h : w.Valid s) (h' : w'.Valid w.eq) : w'.q.length < w.eq.length := by
  apply Nat.lt_of_le_of_ne h'.suffix.length_le
  intro hlen
  obtain ⟨c, q, hq, hblank, hsym⟩ := h'.begins
  -- If it began there, it would begin with a blank or a symbol.
  have heq : w'.q = w.eq := h'.suffix.eq_of_length hlen
  rw [hq, h.eq_wordEnd] at heq
  exact (head_wordEnd heq.symm).elim hblank hsym

/-- The words of a line are words, and one of two words ends before the other begins. -/
theorem lex_words (s : List Chr) :
    (∀ w, .word w ∈ lex s → w.Valid s) ∧
      (lex s).Pairwise fun a b => ∀ w w', a = .word w → b = .word w' → w'.q.length < w.eq.length := by
  induction s using lex.induct with
  | case1 s h => simp [lex_nil h]
  | case2 s h ih =>
    obtain ⟨hvalid, hpairs⟩ := ih
    rw [lex_cons h]
    refine ⟨fun w hw => ?_, List.pairwise_cons.mpr ⟨fun tok htok w w' hw hw' => ?_, hpairs⟩⟩
    · obtain heq | hmem := List.mem_cons.mp hw
      · rw [Gettoken.token] at heq
        split_ifs at heq with ha
        rw [Token.word.inj heq]
        exact (valid_word ha).1
      · exact (hvalid w hmem).mono (ps_suffix s)
    · rw [Gettoken.token] at hw
      split_ifs at hw with ha
      obtain rfl := Token.word.inj hw
      obtain ⟨hword, hps⟩ := valid_word ha
      exact hword.length_lt ((hvalid w' (hw' ▸ htok)).mono hps)

/-- Of two words of a line one ends before the other begins, if they are not the same. -/
theorem word_trichotomy (h : .word w ∈ lex s) (h' : .word w' ∈ lex s) :
    w = w' ∨ w'.q.length < w.eq.length ∨ w.q.length < w'.eq.length := by
  let R : Token → Token → Prop := fun a b => ∀ w w', a = .word w → b = .word w' →
    w = w' ∨ w'.q.length < w.eq.length ∨ w.q.length < w'.eq.length
  have hpairs := (lex_words s).2
  have hrefl : ∀ a ∈ lex s, R a a := fun a _ w w' hw hw' => .inl (Token.word.inj (hw.symm.trans hw'))
  have hfst : (lex s).Pairwise R := hpairs.imp fun hab w w' ha hb => .inr (.inl (hab w w' ha hb))
  have hsnd : (lex s).Pairwise (flip R) :=
    hpairs.imp fun hab w w' ha hb => .inr (.inr (hab w' w hb ha))
  exact hfst.forall_of_forall_of_flip hrefl hsnd h h' w w' rfl rfl

/-! ## Words of a tree -/

theorem mem_words_push (h : w ∈ (cmd.push w').words) : w ∈ cmd.words ∨ w = w' := by
  induction cmd with
  | exec argv => simpa [Cmd.push, Cmd.words] using h
  | redir cmd file mode fd ih =>
    simp only [Cmd.push, Cmd.words, List.mem_append] at h ⊢
    obtain hmem | hfile := h
    · exact (ih hmem).imp_left .inl
    · exact .inl (.inr hfile)
  | _ => exact .inl h

/-- The words of a command are those of its items. -/
theorem mem_words_items {items : List Item} (h : w ∈ (items.foldl Item.addTo cmd).words) :
    w ∈ cmd.words ∨ .word w ∈ items.flatMap Item.tokens := by
  induction items generalizing cmd with
  | nil => exact .inl h
  | cons i items ih =>
    rw [List.flatMap_cons, List.mem_append]
    obtain hmem | htok := ih h
    · cases i with
      | arg w' =>
        obtain hcmd | rfl := mem_words_push hmem
        · exact .inl hcmd
        · exact .inr (.inl (List.mem_singleton_self _))
      | redir mode file =>
        obtain hcmd | hfile := List.mem_append.mp hmem
        · exact .inl hcmd
        · obtain rfl := List.mem_singleton.mp hfile
          exact .inr (.inl (by simp [Item.tokens]))
    · exact .inr (.inr htok)

theorem words_backs (k : ℕ) (cmd : Cmd) : (Cmd.back^[k] cmd).words = cmd.words := by
  induction k generalizing cmd with
  | zero => rfl
  | succ k ih => rw [Function.iterate_succ_apply, ih, Cmd.words]

/-- The words of a command are among its tokens. -/
theorem mem_words {N : Nonterminal} (d : Derives N ts t) (hw : w ∈ t.words) : .word w ∈ ts := by
  induction d with
  | simple items hargs =>
    exact (mem_words_items hw).resolve_left List.not_mem_nil
  | block d items hredirs ih =>
    obtain hcmd | hitems := mem_words_items hw
    · simp [ih hcmd]
    · exact List.mem_append_right _ (List.mem_cons_of_mem _ hitems)
  | single d ih => exact ih hw
  | pipe l r ihl ihr =>
    rw [Cmd.words, List.mem_append] at hw
    exact List.mem_append.mpr (hw.imp ihl fun h => List.mem_cons_of_mem _ (ihr h))
  | backs d k ih =>
    rw [words_backs] at hw
    exact List.mem_append_left _ (ih hw)
  | list l k r ihl ihr =>
    rw [Cmd.words, List.mem_append, words_backs] at hw
    apply List.mem_append.mpr
    exact hw.imp (fun h => List.mem_append_left _ (ihl h)) fun h => List.mem_cons_of_mem _ (ihr h)

/-! ## The line behind `nulterminate` -/

/-- `nulterminate` writes one zero behind each word of the tree. -/
theorem nulterminate_eq (len : ℕ) (t : Cmd) (buf : List Chr) :
    nulterminate len t buf = t.words.foldl (fun buf w => buf.set (len - w.eq.length) 0) buf := by
  induction t generalizing buf with
  | exec argv => rfl
  | redir cmd file mode fd ih => rw [nulterminate, ih, Cmd.words, List.foldl_append]; rfl
  | pipe left right ihl ihr => rw [nulterminate, ihl, ihr, Cmd.words, List.foldl_append]
  | list left right ihl ihr => rw [nulterminate, ihl, ihr, Cmd.words, List.foldl_append]
  | back cmd ih => rw [nulterminate, ih, Cmd.words]

/-- A character is changed if a word ends in front of it, and else it is as it was. -/
theorem getElem?_nulterminate (len : ℕ) (t : Cmd) (buf : List Chr) (i : ℕ) :
    (nulterminate len t buf)[i]? =
      if ∃ w ∈ t.words, i = len - w.eq.length then buf[i]?.map fun _ => 0 else buf[i]? := by
  rw [nulterminate_eq]
  generalize t.words = words
  induction words generalizing buf with
  | nil => simp
  | cons w words ih =>
    rw [List.foldl_cons, ih, List.getElem?_set]
    by_cases hi : i = len - w.eq.length
    · have hmem : ∃ w' ∈ w :: words, i = len - w'.eq.length := ⟨w, List.mem_cons_self, hi⟩
      rw [if_pos hmem, ← hi, if_pos rfl]
      cases hb : buf[i]? with
      | none => simp [List.getElem?_eq_none_iff.mp hb |>.not_gt]
      | some c => simp [(List.getElem?_eq_some_iff.mp hb).1]
    · have hiff : (∃ w' ∈ w :: words, i = len - w'.eq.length) ↔
          ∃ w' ∈ words, i = len - w'.eq.length := by
        simp [hi]
      rw [if_neg (Ne.symm hi)]
      simp only [hiff]

/-- A string in memory, from how its characters are. -/
theorem lineOf_eq {mem text : List Chr} {p : ℕ} (htext : 0 ∉ text)
    (hchars : ∀ j < text.length, mem[p + j]? = text[j]?)
    (hend : mem[p + text.length]? = some 0 ∨ mem[p + text.length]? = none) :
    lineOf (mem.drop p) = text := by
  have hdrop : text <+: mem.drop p := by
    rw [List.prefix_iff_getElem?]
    intro j hj
    rw [List.getElem?_drop, hchars j hj, List.getElem?_eq_getElem hj]
  obtain ⟨rest, hrest⟩ := hdrop
  have hhead : rest.head? = some 0 ∨ rest.head? = none := by
    rw [← List.getElem?_drop, ← hrest, List.getElem?_append_right le_rfl, Nat.sub_self] at hend
    rwa [List.head?_eq_getElem?]
  rw [lineOf, ← hrest, List.takeWhile_append_of_pos fun c hc => decide_eq_true (ne_of_mem_of_not_mem hc htext)]
  cases rest with
  | nil => simp
  | cons c rest =>
    obtain hc | hc := hhead
    · obtain rfl : c = 0 := Option.some.inj hc
      simp
    · cases hc

/-- Every word of the tree that `parsecmd` returns is a string in the line it leaves: it is what was
there, it is not empty, and it has neither a blank nor a symbol. -/
theorem nulterminate_words (s : List Chr) (t : Cmd) (h : parsecmd s = .ok t) :
    ∀ w ∈ t.words,
      lineOf ((nulterminate (lineOf s).length t s).drop ((lineOf s).length - w.q.length)) = w.text ∧
        w.text ≠ [] ∧ ∀ c ∈ w.text, c ∉ whitespace ∧ c ∉ symbols := by
  intro w hw
  -- the word is one of the line's, at its place
  have d := ((parsecmd_iff s).1 t).mp h
  have hmem := mem_words d hw
  have hvalid := (lex_words (lineOf s)).1 w hmem
  obtain ⟨pre, hpre⟩ := hvalid.suffix
  have hlt := hvalid.length_eq_lt
  have htext := hvalid.text_append
  have hlen := congrArg List.length hpre
  have hlen' := congrArg List.length htext
  rw [List.length_append] at hlen hlen'
  -- the line, cut at the word
  have hs : s = pre ++ (w.text ++ (w.eq ++ s.dropWhile (· ≠ 0))) := by
    rw [← List.append_assoc w.text, htext, ← List.append_assoc, hpre]
    exact List.takeWhile_append_dropWhile.symm
  -- three things to see of the line that starts at the word
  refine ⟨lineOf_eq ?_ ?_ ?_, ?_, ?_⟩
  · -- There is no `NUL` in the line.
    intro h0
    have hq : (0 : Chr) ∈ lineOf s := by
      rw [← hpre, ← htext]
      exact List.mem_append_right _ (List.mem_append_left _ h0)
    simpa using List.mem_takeWhile_imp hq
  -- the bytes of the word are as they were: no terminator falls inside
  · intro j hj
    rw [getElem?_nulterminate, if_neg]
    · have hp : (lineOf s).length - w.q.length + j = pre.length + j := by omega
      rw [hp, hs, List.getElem?_append_right (Nat.le_add_right _ _), Nat.add_sub_cancel_left,
        List.getElem?_append_left hj]
    · rintro ⟨w', hw', hj'⟩
      have hvalid' := (lex_words (lineOf s)).1 w' (mem_words d hw')
      have hlt' := hvalid'.length_eq_lt
      have hle' := hvalid'.suffix.length_le
      obtain rfl | h₁ | h₁ := word_trichotomy hmem (mem_words d hw') <;> omega
  -- behind it there is the terminator
  · rw [getElem?_nulterminate, if_pos ⟨w, hw, by omega⟩]
    cases s[(lineOf s).length - w.q.length + w.text.length]? with
    | none => exact .inr rfl
    | some c => exact .inl rfl
  · intro hnil
    rw [hnil, List.length_nil] at hlen'
    omega
  -- every character is of the word's kind
  · intro c hc
    rw [hvalid.text_eq] at hc
    simpa using List.mem_takeWhile_imp hc

/-- `a<b`: the tree has a redirection around the argument. -/
theorem nulterminate_words_redir :
    let s : List Chr := [ascii 'a', ascii '<', ascii 'b', 0]
    let t : Cmd := .redir (.exec [⟨lineOf s, (lineOf s).tail⟩]) ⟨[ascii 'b'], []⟩ .O_READ 0
    ∀ w ∈ t.words,
      lineOf ((nulterminate (lineOf s).length t s).drop ((lineOf s).length - w.q.length)) = w.text ∧
        w.text ≠ [] ∧ ∀ c ∈ w.text, c ∉ whitespace ∧ c ∉ symbols :=
  nulterminate_words _ _ (by decide)

end UnixV6.Sh
