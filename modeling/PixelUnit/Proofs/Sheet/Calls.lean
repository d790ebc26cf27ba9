import PixelUnit.Proofs.Sheet.Exchange
import PixelUnit.Proofs.Sheet.Words

/-!
# Calls in words

A part of a word that starts like a number is exchanged for the call of a function. The front of the
word goes on into the name of the function, its end becomes a word of its own, and all brackets are
closed as before (`ReadsAlone.exchange_call`). Other parts of words stay parts of words, so that one
after the other can be exchanged.
-/

namespace PixelUnit.Sheet

/-! ## The end of a word -/

/-- The length of the word at the front of a text, if there is one. -/
def wordLength : List Char → Nat
  | [] => 0
  | c :: r =>
    match Lexeme.read c r with
    | .ok l => if l.kind = .word then l.raw.length else 0
    | .error _ => 0

/-- The token of a word, if that is not empty. -/
def wordOf : List Char → List Token
  | [] => []
  | c :: t => [.of .word (c :: t)]

/-- A text that is a word where it stands is read as one. -/
theorem lexes_wordOf {q r : List Char} {ts : List Token} (hq : wordLength (q ++ r) = q.length)
    (hts : Lexes r ts) : Lexes (q ++ r) (wordOf q ++ ts) := by
  cases q with
  | nil => exact hts
  | cons c t =>
    rw [List.cons_append, wordLength] at hq
    cases hread : Lexeme.read c (t ++ r) with
    | error e => simp [hread] at hq
    | ok l =>
      simp only [hread] at hq
      split at hq
      · next hkind =>
        obtain ⟨u, hraw, happ⟩ := Lexes.exists_read hread
        rw [hraw] at hq
        obtain ⟨rfl, hrest⟩ := List.append_inj happ (by simpa using hq.symm)
        have hfault : l.fault = none := by
          cases Lexeme.form_of_read hread with
          | badString | url => cases hkind
          | _ => rfl
        obtain ⟨kind, raw, rest, fault⟩ := l
        simp only at hkind hraw hrest hfault
        subst hkind hraw hrest hfault
        exact .cons hread hts
      · cases hq

theorem kind_of_mem_wordOf {q : List Char} {t : Token} (h : t ∈ wordOf q) : t.kind = .word := by
  cases q with
  | nil => cases h
  | cons c u =>
    rw [List.mem_singleton.1 h]
    rfl

@[simp] theorem toList_rawText_wordOf (q : List Char) : (rawText (wordOf q)).toList = q := by
  cases q <;> simp [wordOf]

/-! ## Texts in parentheses -/

/-- A text is read as tokens up to a closing parenthesis behind it. -/
structure ReadsInside (h : List Char) (hs : List Token) : Prop where
  lexes : ∀ {r : List Char} {ts : List Token}, Lexes r ts →
    Lexes (h ++ ')' :: r) (hs ++ .of .closeParen [')'] :: ts)
  neutral : Prelude.Neutral (hs.map Token.kind)
  noComment : ∀ t ∈ hs, t.kind ≠ .comment

/-- A text in parentheses. -/
def group (h : List Char) : List Char :=
  '(' :: (h ++ [')'])

/-- Tokens in parentheses. -/
def groupTokens (hs : List Token) : List Token :=
  .of .openParen ['('] :: (hs ++ [.of .closeParen [')']])

theorem endsWord_group (h r : List Char) : endsWord (group h ++ r) = true := rfl

namespace ReadsInside

variable {h : List Char} {hs : List Token}

/-- A text in parentheses is read as its tokens in parentheses, whatever follows. -/
theorem lexes_group (hh : ReadsInside h hs) {r : List Char} {ts : List Token} (hts : Lexes r ts) :
    Lexes (group h ++ r) (groupTokens hs ++ ts) := by
  have hopen : Lexes ('(' :: ([] ++ (h ++ ')' :: r)))
      (.of .openParen ['('] :: (hs ++ .of .closeParen [')'] :: ts)) := .cons rfl (hh.lexes hts)
  simpa [group, groupTokens] using hopen

theorem rawText_group (hh : ReadsInside h hs) : (rawText (groupTokens hs)).toList = group h := by
  have hraw := (hh.lexes_group .nil).rawText_eq
  rwa [List.append_nil, List.append_nil] at hraw

theorem neutral_group (hh : ReadsInside h hs) :
    Prelude.Neutral ((groupTokens hs).map Token.kind) := by
  simpa [groupTokens, Token.of] using hh.neutral.parens

/-- No comment is among the tokens in parentheses. -/
theorem noComment_group (hh : ReadsInside h hs) : ∀ t ∈ groupTokens hs, t.kind ≠ .comment := by
  intro t ht
  simp only [groupTokens, List.mem_cons, List.mem_append, List.not_mem_nil, or_false] at ht
  rcases ht with rfl | ht | rfl
  · exact nofun
  · exact hh.noComment t ht
  · exact nofun

/-- A word in parentheses. -/
theorem word {c : Char} {t : List Char} (hplain : ∀ d ∈ c :: t, isPlain d = true) :
    ReadsInside (c :: t) [.of .word (c :: t)] where
  lexes {r ts} hts := by
    have hread : Lexeme.read c (t ++ ')' :: r) = .ok ⟨.word, c :: t, ')' :: r, none⟩ :=
      Lexeme.read_plain hplain rfl fun _ => rfl
    exact .cons hread (.cons (t := []) rfl hts)
  neutral := Prelude.neutral_nil.cons rfl
  noComment := List.forall_mem_singleton.2 nofun

/-- The call of a function in parentheses. -/
theorem call {c : Char} {t : List Char} (hplain : ∀ d ∈ c :: t, isPlain d = true)
    (hurl : isUrlName (c :: t) = false) (hh : ReadsInside h hs) :
    ReadsInside (c :: t ++ group h) (.of .word (c :: t) :: groupTokens hs) where
  lexes {r ts} hts := by
    have hread : Lexeme.read c (t ++ (group h ++ ')' :: r)) =
        .ok ⟨.word, c :: t, group h ++ ')' :: r, none⟩ :=
      Lexeme.read_plain hplain (endsWord_group _ _) fun hname => by
        rw [hurl] at hname
        cases hname
    rw [List.append_assoc]
    exact .cons hread (hh.lexes_group (.cons (t := []) rfl hts))
  neutral := hh.neutral_group.cons rfl
  noComment := List.forall_mem_cons.2 ⟨nofun, hh.noComment_group⟩

end ReadsInside

/-! ## The front of a word -/

namespace StartsNumber

variable {l : List Char}

theorem append (h : StartsNumber l) (q : List Char) : StartsNumber (l ++ q) := by
  obtain ⟨d, r, rfl, hd⟩ := h
  exact ⟨d, r ++ q, rfl, hd⟩

/-- What ends an identifier before a number also ends it before a name in the place of that. -/
theorem endsIdent_exchange {p x y z : List Char} (h : StartsNumber l) (hp : p ≠ [])
    (hends : endsIdent (p ++ (l ++ y)) = true) : endsIdent (p ++ (x ++ z)) = true := by
  obtain ⟨d, r, rfl, -, -, -, hfeed, -⟩ := h
  match p, hp with
  | [c], _ =>
    have hboth : isIdent c = false ∧ c ≠ '\\' := by simpa [endsIdent, isEscape, hfeed] using hends
    simp [endsIdent, isEscape, hboth.1, hboth.2]
  | c :: d :: p, _ => exact hends

end StartsNumber

theorem StartsWord.not_endsWord {c : Char} {cs : List Char} (hc : StartsWord c cs) :
    endsWord (c :: cs) = false := by
  refine Bool.or_eq_false_iff.2 ⟨?_, hc.noComment⟩
  simp [isSeparator, hc.noSpacing, hc.noQuote, hc.noPunctuation]

/-- Where a word or an at-keyword starts, no word ends. -/
theorem Lexeme.endsWord_of_read {kind : Token.Kind} {c : Char} {t r : List Char}
    (h : read c (t ++ r) = .ok ⟨kind, c :: t, r, none⟩) (hkind : kind = .word ∨ kind = .atKeyword) :
    endsWord (c :: (t ++ r)) = false := by
  rcases hkind with rfl | rfl
  · exact (word_of_read h).1.not_endsWord
  · obtain ⟨rfl, -⟩ := keyword_of_read h
    exact Bool.or_eq_false_iff.2 ⟨rfl, not_startsComment (by decide) _⟩

namespace Lexes

/-- The texts of the tokens in front make up the text in front. -/
theorem rawText_front {b y : List Char} {ts ys : List Token} (h : Lexes (b ++ y) (ts ++ ys))
    (hys : Lexes y ys) : (rawText ts).toList = b := by
  have hwhole := h.rawText_eq
  rw [rawText_append, String.toList_append, hys.rawText_eq] at hwhole
  exact List.append_cancel_right hwhole

/-- The last of some tokens, at its place. -/
theorem exists_read_last {pre ts : List Token} {u : Token} {r : List Char}
    (h : Lexes ((rawText (pre ++ [u])).toList ++ r) (pre ++ u :: ts)) :
    ∃ c k, u = .of u.kind (c :: k) ∧ Lexeme.read c (k ++ r) = .ok ⟨u.kind, c :: k, r, none⟩ := by
  obtain ⟨s, happ, hs⟩ := exists_append h
  obtain ⟨c, k, r', hcs, hu, hread, -⟩ := exists_of_cons hs
  refine ⟨c, k, hu, ?_⟩
  have hraw : u.raw.toList = c :: k := by
    rw [hu]
    simp
  rw [rawText_append, String.toList_append, List.append_assoc, List.append_cancel_left_eq] at happ
  simp only [rawText_cons, rawText_nil, String.append_empty, hraw] at happ
  obtain rfl : r = r' := by simpa [hcs] using happ
  exact hread

/-- An at-keyword goes on into a name that takes the place of what is behind it. -/
theorem exchange_keyword {pre ts ys : List Token} {a : Char} {k z x y : List Char}
    (h : Lexes ((rawText pre).toList ++ a :: (k ++ z)) (pre ++ .of .atKeyword (a :: k) :: ts))
    (hread : Lexeme.read a (k ++ z) = .ok ⟨.atKeyword, a :: k, z, none⟩) (hx : IsName x)
    (hy : endsWord y = true) (hys : Lexes y ys) :
    Lexes ((rawText pre).toList ++ a :: (k ++ x ++ y))
      (pre ++ .of .atKeyword (a :: (k ++ x)) :: ys) := by
  have hnew := Lexeme.read_keyword_front hread hx.ident hy
  refine h.exchange_word rfl (.cons hnew hys) (Lexeme.endsWord_of_read hread (Or.inr rfl))
    (Lexeme.endsWord_of_read (by rw [hnew]) (Or.inr rfl)) id fun _ => ?_
  obtain ⟨rfl, -⟩ := Lexeme.keyword_of_read hread
  have hat : isIdent '@' = false := by decide +kernel
  simp [endsIdent, isEscape, hat]

/-- The first part of a word that is cut open goes on into a name; it may become an at-keyword, with
an at-keyword before it, if there is one. -/
theorem exchange_front {pre ts ys : List Token} {p l r x y : List Char}
    (h : Lexes ((rawText (pre ++ [.of .word (p ++ l)])).toList ++ r)
      (pre ++ .of .word (p ++ l) :: ts))
    (hl : StartsNumber l) (hx : IsName x) (hy : endsWord y = true) (hys : Lexes y ys) :
    ∃ pre' k t, pre = pre' ++ k ∧ (∀ u ∈ k, u.kind = .atKeyword) ∧
      (t.kind = .word ∨ t.kind = .atKeyword) ∧
      Lexes ((rawText pre).toList ++ (p ++ (x ++ y))) (pre' ++ t :: ys) := by
  obtain ⟨c, t, htok, hread⟩ := exists_read_last h
  have hword : p ++ l = c :: t := by simpa using congrArg (·.raw.toList) htok
  have hold := Lexeme.endsWord_of_read hread (Or.inl rfl)
  have h' : Lexes ((rawText pre).toList ++ c :: (t ++ r)) (pre ++ .of .word (p ++ l) :: ts) := by
    simpa [hword] using h
  -- what is read in front of the word, if an at-keyword is last there
  have hlast : ∀ pre' u, pre = pre' ++ [u] → ∃ a k, u = .of u.kind (a :: k) ∧
      Lexeme.read a (k ++ c :: (t ++ r)) = .ok ⟨u.kind, a :: k, c :: (t ++ r), none⟩ := by
    rintro pre' u rfl
    refine @exists_read_last pre' (.of .word (p ++ l) :: ts) _ _ ?_
    simpa using h'
  by_cases hk : EndsInKeyword pre ∧ p = []
  · -- the at-keyword in front goes on into the name
    obtain ⟨⟨u, hu, hkind⟩, rfl⟩ := hk
    obtain ⟨pre', rfl⟩ := List.getLast?_eq_some_iff.1 hu
    obtain ⟨a, k, hraw, hread'⟩ := hlast pre' u rfl
    rw [hkind] at hraw hread'
    refine ⟨pre', [u], .of .atKeyword (a :: (k ++ x)), rfl, List.forall_mem_singleton.2 hkind,
      Or.inr rfl, ?_⟩
    have hwhole : Lexes ((rawText pre').toList ++ a :: (k ++ c :: (t ++ r)))
        (pre' ++ u :: .of .word ([] ++ l) :: ts) := by
      rw [hraw] at h' ⊢
      simpa using h'
    rw [hraw] at hwhole ⊢
    simpa using exchange_keyword hwhole hread' hx hy hys
  · obtain ⟨kind, d, v, hkind, hfront, hnew⟩ := Lexeme.read_front hread hword.symm hl hx hy
    refine ⟨pre, [], .of kind (d :: v), (List.append_nil pre).symm, List.forall_mem_nil _, hkind,
      ?_⟩
    have hlex : Lexes (d :: (v ++ y)) (.of kind (d :: v) :: ys) := .cons hnew hys
    rw [← List.append_assoc p, hfront, List.cons_append]
    refine h'.exchange_word rfl hlex hold (Lexeme.endsWord_of_read hnew hkind) (fun hc => ?_) ?_
    · obtain rfl : c = '*' := Option.some.inj hc
      cases p with
      | nil =>
        obtain ⟨e, s, rfl, -, -, -, -, hstar⟩ := hl
        exact absurd (List.cons.inj hword).1 hstar
      | cons e p =>
        rw [List.head?_cons, ← (List.cons.inj hfront).1, (List.cons.inj hword).1]
    · rintro ⟨u, hu, hkeyword⟩
      obtain ⟨pre', hpre⟩ := List.getLast?_eq_some_iff.1 hu
      obtain ⟨a, k, -, hread'⟩ := hlast pre' u hpre
      have hends := (Lexeme.ahead_of_read hread').atKeyword hkeyword
      rw [← List.cons_append, ← hword, List.append_assoc] at hends
      rw [← List.cons_append, ← hfront, List.append_assoc]
      exact hl.endsIdent_exchange (fun hnil => hk ⟨⟨u, hu, hkeyword⟩, hnil⟩) hends

end Lexes

/-! ## Parts of words -/

/-- A token among some is a word that holds `l`; `a` and `b` are the texts before and behind that,
and the rest of the word is a word at its place. -/
structure InWordAt (ts : List Token) (a l b : List Char) (pre post : List Token)
    (p q : List Char) : Prop where
  tokens_eq : ts = pre ++ .of .word (p ++ (l ++ q)) :: post
  before_eq : a = (rawText pre).toList ++ p
  behind_eq : b = q ++ (rawText post).toList
  wordLength_eq : wordLength (b ++ [';']) = q.length

/-- A text `l` between `a` and `b` is a part of a word. -/
def InWord (ts : List Token) (a l b : List Char) : Prop :=
  ∃ pre post p q, InWordAt ts a l b pre post p q

/-- Another part of a word that stands behind one is a part of the same word or of a later one. -/
theorem InWordAt.same_or_later {ts pre post pre' post' : List Token}
    {a l c m b p q p' q' : List Char} (h : InWordAt ts a l (c ++ (m ++ b)) pre post p q)
    (h' : InWordAt ts (a ++ (l ++ c)) m b pre' post' p' q') (hm : m ≠ []) :
    (post' = post ∧ q = c ++ (m ++ q')) ∨
      ∃ s, post = s ++ .of .word (p' ++ (m ++ q')) :: post' ∧
        c = q ++ ((rawText s).toList ++ p') := by
  obtain ⟨rfl, rfl, -, -⟩ := h
  obtain ⟨htokens, hbefore, -, -⟩ := h'
  have hsame : pre = pre' → Token.of .word (p ++ (l ++ q)) :: post =
      .of .word (p' ++ (m ++ q')) :: post' → post' = post ∧ q = c ++ (m ++ q') := by
    rintro rfl hs
    obtain ⟨hword, rfl⟩ := List.cons.inj hs
    have hraw : p ++ (l ++ q) = p' ++ (m ++ q') := by simpa using congrArg (·.raw.toList) hword
    rw [List.append_assoc, List.append_cancel_left_eq] at hbefore
    exact ⟨rfl, by simpa [← hbefore] using hraw⟩
  rcases List.append_eq_append_iff.1 htokens with ⟨s, rfl, hs⟩ | ⟨s, rfl, hs⟩
  · rcases List.cons_eq_append_iff.1 hs with ⟨rfl, hs⟩ | ⟨s, rfl, rfl⟩
    · exact Or.inl (hsame (List.append_nil pre).symm hs)
    · exact Or.inr ⟨s, rfl, by simpa using hbefore⟩
  · rcases List.cons_eq_append_iff.1 hs with ⟨rfl, hs⟩ | ⟨s, rfl, rfl⟩
    · exact Or.inl (hsame (List.append_nil pre') hs.symm)
    · -- a word that stands before the other one would end before it starts
      have hlength := congrArg List.length hbefore
      have hpos := List.length_pos_iff.2 hm
      simp only [rawText_append, rawText_cons, String.toList_append, Token.toList_raw_of,
        List.length_append] at hlength
      omega

/-- Tokens `us'` have a call with `hs` between its parentheses where `us` have the part `l` of a
word. The name `x` of the function is the end of the token `t`, and the rest of the word stands
behind the call. -/
structure CallsAt (us us' hs : List Token) (x l : List Char) (pre k post : List Token) (t : Token)
    (p q : List Char) : Prop where
  old_eq : us = pre ++ (k ++ .of .word (p ++ (l ++ q)) :: post)
  new_eq : us' = pre ++ t :: (groupTokens hs ++ (wordOf q ++ post))
  keywords : ∀ u ∈ k, u.kind = .atKeyword
  front : t.kind = .word ∨ t.kind = .atKeyword
  rawText_eq : (rawText (pre ++ [t])).toList = (rawText (pre ++ k)).toList ++ (p ++ x)

namespace CallsAt

variable {us us' hs pre k post : List Token} {t : Token} {x l p q h : List Char}

theorem front_ne (hc : CallsAt us us' hs x l pre k post t p q) :
    t.kind.delimits = false ∧ t.kind ≠ .spacing ∧ t.kind ≠ .comment := by
  rcases hc.front with ht | ht <;> rw [ht] <;> exact ⟨rfl, nofun, nofun⟩

/-- If no white space comes first, none does with the call. -/
theorem head (hc : CallsAt us us' hs x l pre k post t p q)
    (hus : ∀ u, us.head? = some u → u.kind ≠ .spacing) :
    ∀ u, us'.head? = some u → u.kind ≠ .spacing := by
  intro u hu
  rw [hc.new_eq] at hu
  rw [hc.old_eq] at hus
  cases pre with
  | nil =>
    obtain rfl : t = u := Option.some.inj hu
    exact hc.front_ne.2.1
  | cons v pre => exact hus u hu

/-- If no white space comes last, none does with the call. -/
theorem last (hc : CallsAt us us' hs x l pre k post t p q)
    (hus : ∀ u, us.getLast? = some u → u.kind ≠ .spacing) :
    ∀ u, us'.getLast? = some u → u.kind ≠ .spacing := by
  intro u hu
  have hend : ∀ {vs : List Token} {v : Token}, us' = vs ++ [v] → v = u := fun h => by
    rw [h, List.getLast?_concat] at hu
    exact Option.some.inj hu
  have hnew := hc.new_eq
  have hold := hc.old_eq
  rcases post.eq_nil_or_concat' with rfl | ⟨post, v, rfl⟩
  · cases q with
    | nil =>
      have h := @hend (pre ++ t :: .of .openParen ['('] :: hs) (.of .closeParen [')'])
        (by rw [hnew]; simp [wordOf, groupTokens])
      rw [← h]
      intro hkind
      cases hkind
    | cons d q =>
      have h := @hend (pre ++ t :: groupTokens hs) (.of .word (d :: q))
        (by rw [hnew]; simp [wordOf])
      rw [← h]
      intro hkind
      cases hkind
  · have h := @hend (pre ++ t :: (groupTokens hs ++ (wordOf q ++ post))) v (by rw [hnew]; simp)
    rw [← h]
    refine hus v (List.getLast?_eq_some_iff.2
      ⟨pre ++ (k ++ .of .word (p ++ (l ++ q)) :: post), ?_⟩)
    rw [hold]
    simp

/-- The call leaves the brackets that are open as they were. -/
theorem passes (hc : CallsAt us us' hs x l pre k post t p q) (hh : ReadsInside h hs)
    {awaited : List Token.Kind} (ha : Prelude.Awaits awaited) :
    Prelude.passes awaited (us'.map Token.kind) = Prelude.passes awaited (us.map Token.kind) := by
  have hnew : Prelude.Neutral ((t :: (groupTokens hs ++ wordOf q)).map Token.kind) := by
    rw [List.map_cons, List.map_append]
    refine (hh.neutral_group.append (.of_not_delimits fun c hq => ?_)).cons hc.front_ne.1
    obtain ⟨u, hu, rfl⟩ := List.mem_map.1 hq
    rw [kind_of_mem_wordOf hu]
    rfl
  have hold : Prelude.Neutral ((k ++ [Token.of .word (p ++ (l ++ q))]).map Token.kind) := by
    refine .of_not_delimits fun c hk => ?_
    obtain ⟨u, hu, rfl⟩ := List.mem_map.1 hk
    rcases List.mem_append.1 hu with hu | hu
    · rw [hc.keywords u hu]
      rfl
    · rw [List.mem_singleton.1 hu]
      rfl
  have hnew := hnew.passes_insert ha (pre.map Token.kind) (post.map Token.kind)
  have hold := hold.passes_insert ha (pre.map Token.kind) (post.map Token.kind)
  rw [hc.new_eq, hc.old_eq]
  simpa using hnew.trans hold.symm

/-- If there is no comment, there is none with the call. -/
theorem noComment (hc : CallsAt us us' hs x l pre k post t p q) (hh : ReadsInside h hs)
    (hus : ∀ u ∈ us, u.kind ≠ .comment) : ∀ u ∈ us', u.kind ≠ .comment := by
  intro u hu
  rw [hc.new_eq] at hu
  rw [hc.old_eq] at hus
  simp only [List.mem_append, List.mem_cons] at hu hus
  rcases hu with hu | rfl | hu | hu | hu
  · exact hus u (Or.inl hu)
  · exact hc.front_ne.2.2
  · exact hh.noComment_group u hu
  · rw [kind_of_mem_wordOf hu]
    exact nofun
  · exact hus u (Or.inr (Or.inr (Or.inr hu)))

/-- Parts of words behind the call are still parts of words. -/
theorem inWord (hc : CallsAt us us' hs x l pre k post t p q) (hh : ReadsInside h hs)
    {a c m d : List Char} (hat : InWordAt us a l (c ++ (m ++ d)) (pre ++ k) post p q)
    (hm : m ≠ []) (hword : InWord us (a ++ (l ++ c)) m d) :
    InWord us' (a ++ (x ++ (group h ++ c))) m d := by
  obtain ⟨pre₂, post₂, p₂, q₂, hat₂⟩ := hword
  have hfront : ∀ s : List Char,
      (rawText (pre ++ [t])).toList ++ ((rawText (groupTokens hs)).toList ++ s) =
      a ++ (x ++ (group h ++ s)) := fun s => by
    rw [hc.rawText_eq, hh.rawText_group, hat.before_eq]
    simp
  rcases hat.same_or_later hat₂ hm with ⟨rfl, rfl⟩ | ⟨s, rfl, rfl⟩
  · refine ⟨pre ++ t :: groupTokens hs, post₂, c, q₂, ?_, ?_, hat₂.behind_eq, hat₂.wordLength_eq⟩
    · have hrest : wordOf (c ++ (m ++ q₂)) = [.of .word (c ++ (m ++ q₂))] := by
        cases hcons : c ++ (m ++ q₂) with
        | nil => exact absurd (List.append_eq_nil_iff.1 (List.append_eq_nil_iff.1 hcons).2).1 hm
        | cons d r => rfl
      rw [hc.new_eq, hrest]
      simp
    · rw [← hfront]
      simp
  · refine ⟨pre ++ t :: (groupTokens hs ++ (wordOf q ++ s)), post₂, p₂, q₂, ?_, ?_,
      hat₂.behind_eq, hat₂.wordLength_eq⟩
    · rw [hc.new_eq]
      simp
    · rw [← hfront]
      simp

end CallsAt

/-- A part of a word that starts like a number is exchanged for the call of a function. -/
theorem ReadsAlone.exchange_call {a l b x h : List Char} {us hs : List Token}
    (hus : ReadsAlone (a ++ (l ++ b)) us) (hword : InWord us a l b)
    (hl : StartsNumber l) (hx : IsName x) (hh : ReadsInside h hs) :
    ∃ us', ReadsAlone (a ++ (x ++ (group h ++ b))) us' ∧
      (∀ awaited, Prelude.Awaits awaited →
        Prelude.passes awaited (us'.map Token.kind) = Prelude.passes awaited (us.map Token.kind)) ∧
      ((∀ t ∈ us, t.kind ≠ .comment) → ∀ t ∈ us', t.kind ≠ .comment) ∧
      ∀ c m d, b = c ++ (m ++ d) → m ≠ [] → InWord us (a ++ (l ++ c)) m d →
        InWord us' (a ++ (x ++ (group h ++ c))) m d := by
  obtain ⟨pre, post, p, q, hat⟩ := hword
  obtain ⟨rfl, rfl, rfl, hlength⟩ := id hat
  have hlex := hus.lexes
  have hend : Lexes ((rawText post).toList ++ [';']) (post ++ [.of .semicolon [';']]) := by
    obtain ⟨s, happ, hs⟩ := @Lexes.exists_append (pre ++ [.of .word (p ++ (l ++ q))]) _ _
      (by simpa using hlex)
    obtain rfl : (rawText post).toList ++ [';'] = s := by simpa using happ
    exact hs
  have hback := hh.lexes_group (lexes_wordOf (by rwa [List.append_assoc] at hlength) hend)
  obtain ⟨pre', k, t, rfl, hk, ht, hnew⟩ :=
    @Lexes.exchange_front pre (post ++ [.of .semicolon [';']]) _ p (l ++ q)
      ((rawText post).toList ++ [';']) x _ (by simpa using hlex) (hl.append q) hx
      (endsWord_group _ _) hback
  have hfront : Lexes ((rawText (pre' ++ k)).toList ++ (p ++ x) ++
      (group h ++ (q ++ ((rawText post).toList ++ [';']))))
      (pre' ++ [t] ++ (groupTokens hs ++ (wordOf q ++ (post ++ [.of .semicolon [';']])))) := by
    simpa using hnew
  have hcalls : CallsAt _ _ hs x l pre' k post t p q :=
    ⟨List.append_assoc .., rfl, hk, ht, hfront.rawText_front hback⟩
  exact ⟨_, ⟨by simpa using hnew, hcalls.head hus.head, hcalls.last hus.last⟩,
    fun _ ha => hcalls.passes hh ha, hcalls.noComment hh, fun c m d hb hm hword =>
      hcalls.inWord hh (hb ▸ hat) hm hword⟩

end PixelUnit.Sheet
