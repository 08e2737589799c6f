import LateBridge.Proofs.Syntax.Tokens
import LateBridge.Proofs.Results

/-!
# Proofs/Syntax/Reading — the reader of type references follows the grammar

    typeAt (n + 1) = primary (typeAt n) , suffixes
    IsType (n + 1) = Primary (IsType n) , suffixes

Each step of the reader has a production, and the two agree both ways: what a step reads is spelled
by tokens of the production, and from a spelling of the production's tokens the step reads its tree,
up to blanks after it (`Reads`).  The second direction needs to know what comes next, since a reader
takes all it can: `StartsIn` lists the characters that end a production.  `FollowsGrammar` is the
pair of both for types; the steps are over any `typeOf` that has it, and `typeAt` has it by induction
on the depth.
-/

namespace LateBridge

open Text (skipBlanks isBlank isNameChar isName)

namespace TypeReader

/-- **A step reads a value**, and leaves a rest up to blanks at its front. -/
def Reads {α : Type} (step : Step α) (a : α) (rest : List Char) : Prop :=
  ∃ rest', step = .ok (a, rest') ∧ skipBlanks rest' = skipBlanks rest

/-! ## Ranks -/

/-- Blanks before a comma or a closing bracket do not matter. -/
theorem rankFrom_skipBlanks (rank : Nat) (cs : List Char) :
    rankFrom rank (skipBlanks cs) = rankFrom rank cs := by
  induction cs with
  | nil => rfl
  | cons c cs ih =>
    by_cases hc : isBlank c = true
    · rw [Text.skipBlanks_of_blank hc, ih, rankFrom, if_pos hc]
    · rw [Text.skipBlanks_of_visible (Bool.eq_false_iff.mpr hc)]

theorem rankFrom_comma {rank : Nat} (h : rank < maxRank) (cs : List Char) :
    rankFrom rank (',' :: cs) = rankFrom (rank + 1) cs := by
  rw [rankFrom, if_neg (by decide), if_pos (by decide), if_pos h]

theorem rankFrom_close (rank : Nat) (cs : List Char) :
    rankFrom rank (']' :: cs) = .ok (rank, cs) := by
  rw [rankFrom, if_neg (by decide), if_neg (by decide), if_pos (by decide)]

/-- What is left of a rank specifier after its opening bracket and some commas. -/
def rankTail (commas : Nat) : List TypeToken :=
  List.replicate commas (.mark ',') ++ [.mark ']']

theorem rankFrom_sound {rank r : Nat} {cs rest : List Char}
    (h : rankFrom rank cs = .ok (r, rest)) (hrank : rank ≤ maxRank) :
    rank ≤ r ∧ r ≤ maxRank ∧ Spells (rankTail (r - rank)) cs rest := by
  induction cs generalizing rank with
  | nil => cases h
  | cons c cs ih =>
    rw [rankFrom] at h
    split at h
    · rename_i hblank
      obtain ⟨hle, hmax, hcs⟩ := ih h hrank
      exact ⟨hle, hmax, hcs.congr (Text.skipBlanks_of_blank hblank cs).symm rfl⟩
    rename_i hblank
    have hskip : skipBlanks (c :: cs) = c :: cs :=
      Text.skipBlanks_of_visible (Bool.eq_false_iff.mpr hblank) cs
    split at h
    · rename_i hcomma
      split at h
      · rename_i hlt
        obtain ⟨hle, hmax, hcs⟩ := ih h hlt
        have hsub : r - rank = (r - (rank + 1)) + 1 := by omega
        rw [beq_iff_eq.mp hcomma] at hskip ⊢
        refine ⟨by omega, hmax, ?_⟩
        rw [hsub, rankTail, List.replicate_succ]
        exact .mark hskip hcs
      · cases h
    split at h
    · rename_i hclose
      obtain ⟨rfl, rfl⟩ := Prod.mk.inj (Except.ok.inj h)
      rw [beq_iff_eq.mp hclose] at hskip ⊢
      rw [Nat.sub_self]
      exact ⟨Nat.le_refl _, hrank, .mark hskip rfl⟩
    · cases h

theorem rankFrom_complete {commas rank : Nat} {cs rest : List Char}
    (h : Spells (rankTail commas) cs rest) (hrank : rank + commas ≤ maxRank) :
    Reads (rankFrom rank cs) (rank + commas) rest := by
  induction commas generalizing rank cs with
  | zero =>
    obtain ⟨mid, hmid, hrest⟩ := Spells.exists_of_mark h
    rw [← rankFrom_skipBlanks, hmid, rankFrom_close]
    exact ⟨mid, rfl, hrest⟩
  | succ commas ih =>
    rw [rankTail, List.replicate_succ] at h
    obtain ⟨mid, hmid, hmore⟩ := Spells.exists_of_mark h
    rw [← rankFrom_skipBlanks, hmid, rankFrom_comma (by omega)]
    have hsum : rank + (commas + 1) = rank + 1 + commas := by omega
    rw [hsum] at hrank ⊢
    exact ih hmore hrank

/-- The tokens of a run of rank specifiers. -/
def runTokens (ranks : List Nat) : List TypeToken :=
  (ranks.map TypeSuffix.rank).flatMap TypeSuffix.tokens

theorem runTokens_cons (rank : Nat) (ranks : List Nat) :
    runTokens (rank :: ranks) = .mark '[' :: (rankTail (rank - 1) ++ runTokens ranks) := rfl

/-- **A run of rank specifiers** is read up to where no bracket opens. -/
theorem rankRun_sound {fuel : Nat} {ranks : List Nat} {cs rest : List Char}
    (h : rankRun fuel cs = .ok (ranks, rest)) (hfuel : (skipBlanks cs).length ≤ fuel) :
    (∀ r ∈ ranks, (TypeSuffix.rank r).InRange) ∧ Spells (runTokens ranks) cs rest ∧
      ∀ more, skipBlanks rest ≠ '[' :: more := by
  induction fuel generalizing cs ranks with
  | zero =>
    obtain ⟨rfl, rfl⟩ := Prod.mk.inj (Except.ok.inj h)
    have hnil : skipBlanks cs = [] := List.length_eq_zero_iff.mp (Nat.le_zero.mp hfuel)
    exact ⟨by simp, rfl, by simp [hnil]⟩
  | succ fuel ih =>
    rw [rankRun] at h
    split at h
    · rename_i after hopen
      split at h
      · cases h
      rename_i rank mid hrank
      split at h
      · cases h
      rename_i ranks' rest' hranks
      obtain ⟨rfl, rfl⟩ := Prod.mk.inj (Except.ok.inj h)
      obtain ⟨hone, hmax, hspells⟩ := rankFrom_sound hrank (by decide)
      have hle : (skipBlanks mid).length ≤ after.length := hspells.length_le
      have hmid : (skipBlanks mid).length ≤ fuel := by
        rw [hopen, List.length_cons] at hfuel
        omega
      obtain ⟨hrange, hmore, hstop⟩ := ih hranks hmid
      exact ⟨List.forall_mem_cons.mpr ⟨⟨hone, hmax⟩, hrange⟩,
        .mark hopen (hspells.append hmore), hstop⟩
    · rename_i hclosed
      obtain ⟨rfl, rfl⟩ := Prod.mk.inj (Except.ok.inj h)
      rw [Text.skipBlanks_skipBlanks]
      exact ⟨by simp, (Text.skipBlanks_skipBlanks cs).symm, hclosed⟩

theorem rankRun_complete {fuel : Nat} {ranks : List Nat} {cs rest : List Char}
    (h : Spells (runTokens ranks) cs rest) (hrange : ∀ r ∈ ranks, (TypeSuffix.rank r).InRange)
    (hfuel : ranks.length ≤ fuel) (hstop : ∀ more, skipBlanks rest ≠ '[' :: more) :
    Reads (rankRun fuel cs) ranks rest := by
  induction ranks generalizing fuel cs with
  | nil =>
    have hcs : skipBlanks cs = skipBlanks rest := h
    cases fuel with
    | zero => exact ⟨cs, rfl, hcs⟩
    | succ fuel =>
      refine ⟨skipBlanks cs, ?_, by rw [Text.skipBlanks_skipBlanks, hcs]⟩
      rw [rankRun]
      split
      · rename_i after hopen
        exact absurd (hcs.symm.trans hopen) (hstop after)
      · rfl
  | cons rank ranks ih =>
    obtain ⟨⟨hone, hmax⟩, hrange⟩ := List.forall_mem_cons.mp hrange
    cases fuel with
    | zero => cases hfuel
    | succ fuel =>
      rw [runTokens_cons] at h
      obtain ⟨after, hopen, h⟩ := Spells.exists_of_mark h
      obtain ⟨mid, htail, hmore⟩ := h.exists_of_append
      have hsum : 1 + (rank - 1) = rank := by omega
      obtain ⟨mid', hrank, hmid'⟩ := rankFrom_complete htail (hsum.symm ▸ hmax)
      obtain ⟨rest', hranks, hrest'⟩ :=
        ih (hmore.congr hmid'.symm rfl) hrange (Nat.le_of_succ_le_succ hfuel)
      refine ⟨rest', ?_, hrest'⟩
      rw [rankRun, hopen]
      simp only [hrank, hsum, hranks]

end TypeReader

/-! ## Suffixes -/

namespace TypeSyntax

/-- A run of ranks waits for the ranks after it. -/
theorem suffixedFrom_ranks (run ranks : List Nat) (base : TypeSyntax)
    (suffixes : List TypeSuffix) :
    suffixedFrom run base (ranks.map .rank ++ suffixes) =
      suffixedFrom (run ++ ranks) base suffixes := by
  induction ranks generalizing run with
  | nil => rw [List.append_nil, List.map_nil, List.nil_append]
  | cons rank ranks ih =>
    rw [List.map_cons, List.cons_append, suffixedFrom, ih, List.append_assoc]
    rfl

/-- A run of ranks ends where no rank follows. -/
theorem suffixed_ranks {suffixes : List TypeSuffix} (h : ∀ r, suffixes.head? ≠ some (.rank r))
    (base : TypeSyntax) (ranks : List Nat) :
    base.suffixed (ranks.map .rank ++ suffixes) = (base.arrays ranks).suffixed suffixes := by
  rw [suffixed, suffixedFrom_ranks, List.nil_append]
  cases suffixes with
  | nil => rfl
  | cons x suffixes =>
    cases x with
    | nullable => rfl
    | pointer => rfl
    | rank r => exact absurd rfl (h r)

end TypeSyntax

/-- Suffixes start with the longest run of ranks. -/
theorem TypeSuffix.exists_run (suffixes : List TypeSuffix) :
    ∃ (ranks : List Nat) (more : List TypeSuffix), suffixes = ranks.map .rank ++ more ∧
      ∀ r, more.head? ≠ some (.rank r) := by
  induction suffixes with
  | nil => exact ⟨[], [], rfl, by simp⟩
  | cons x suffixes ih =>
    cases x with
    | nullable => exact ⟨[], .nullable :: suffixes, rfl, by simp⟩
    | pointer => exact ⟨[], .pointer :: suffixes, rfl, by simp⟩
    | rank r =>
      obtain ⟨ranks, more, rfl, hmore⟩ := ih
      exact ⟨r :: ranks, more, rfl, hmore⟩

namespace TypeReader

/-- The characters that may follow a type. -/
def afterType : List Char := [',', '>']

/-- The characters that may follow a type without its suffixes. -/
def afterPrimary : List Char := ['?', '*', '[', ',', '>']

theorem startsIn_suffixes {suffixes : List TypeSuffix} {cs rest : List Char}
    (h : Spells (suffixes.flatMap TypeSuffix.tokens) cs rest) (hrest : StartsIn afterType rest) :
    StartsIn afterPrimary cs := by
  cases suffixes with
  | nil => exact (hrest.mono (by simp [afterType, afterPrimary])).congr (Eq.symm h)
  | cons x suffixes =>
    cases x <;> obtain ⟨mid, hmid, -⟩ := Spells.exists_of_mark h <;>
      exact startsIn_of_eq hmid (by decide)

/-- A bracket opens just where a rank follows. -/
theorem skipBlanks_ne_open {suffixes : List TypeSuffix} {cs rest : List Char}
    (h : Spells (suffixes.flatMap TypeSuffix.tokens) cs rest) (hrest : StartsIn afterType rest)
    (hhead : ∀ r, suffixes.head? ≠ some (.rank r)) (more : List Char) :
    skipBlanks cs ≠ '[' :: more := by
  cases suffixes with
  | nil => exact (hrest.congr (Eq.symm h)).ne (by decide) more
  | cons x suffixes =>
    cases x with
    | rank r => exact absurd rfl (hhead r)
    | nullable | pointer =>
      obtain ⟨mid, hmid, -⟩ := Spells.exists_of_mark h
      simp [hmid]

theorem head_ne_rank {suffixes : List TypeSuffix} {cs rest : List Char}
    (h : Spells (suffixes.flatMap TypeSuffix.tokens) cs rest)
    (hcs : ∀ more, skipBlanks cs ≠ '[' :: more) (r : Nat) : suffixes.head? ≠ some (.rank r) := by
  intro hhead
  obtain ⟨more, rfl⟩ := List.head?_eq_some_iff.mp hhead
  obtain ⟨mid, hmid, -⟩ := Spells.exists_of_mark h
  exact hcs mid hmid

/-- No suffix is spelled by nothing. -/
theorem length_suffixes_le {suffixes : List TypeSuffix} {cs rest : List Char}
    (h : Spells (suffixes.flatMap TypeSuffix.tokens) cs rest) :
    suffixes.length ≤ (skipBlanks cs).length := by
  induction suffixes generalizing cs with
  | nil => exact Nat.zero_le _
  | cons x suffixes ih =>
    obtain ⟨mid, htokens, hmore⟩ := h.exists_of_append
    have hle := ih hmore
    have hlt : (skipBlanks mid).length < (skipBlanks cs).length := by
      cases x <;> obtain ⟨after, hafter, h⟩ := Spells.exists_of_mark htokens <;>
        rw [hafter] <;> exact Nat.lt_succ_of_le h.length_le
    rw [List.length_cons]
    omega

/-- **Suffixes that are read are suffixes.** -/
theorem suffixes_sound {fuel : Nat} {base type : TypeSyntax} {cs rest : List Char}
    (h : suffixes fuel base cs = .ok (type, rest)) :
    ∃ list : List TypeSuffix, (∀ x ∈ list, x.InRange) ∧ type = base.suffixed list ∧
      Spells (list.flatMap TypeSuffix.tokens) cs rest := by
  induction fuel generalizing base cs with
  | zero =>
    obtain ⟨rfl, rfl⟩ := Prod.mk.inj (Except.ok.inj h)
    exact ⟨[], by simp, rfl, rfl⟩
  | succ fuel ih =>
    rw [suffixes] at h
    split at h
    · rename_i mid hmark
      obtain ⟨list, hrange, rfl, hmore⟩ := ih h
      exact ⟨.nullable :: list, List.forall_mem_cons.mpr ⟨trivial, hrange⟩, rfl, .mark hmark hmore⟩
    · rename_i mid hmark
      obtain ⟨list, hrange, rfl, hmore⟩ := ih h
      exact ⟨.pointer :: list, List.forall_mem_cons.mpr ⟨trivial, hrange⟩, rfl, .mark hmark hmore⟩
    · rename_i mid hmark
      split at h
      · cases h
      rename_i ranks after hranks
      have hopen : skipBlanks ('[' :: mid) = '[' :: mid := Text.skipBlanks_of_visible (by decide) mid
      obtain ⟨hin, hrun, hstop⟩ := rankRun_sound hranks (hopen.symm ▸ Nat.le_refl _)
      obtain ⟨list, hrange, rfl, hmore⟩ := ih h
      refine ⟨ranks.map .rank ++ list, ?_,
        (TypeSyntax.suffixed_ranks (head_ne_rank hmore hstop) base ranks).symm, ?_⟩
      · exact List.forall_mem_append.mpr ⟨List.forall_mem_map.mpr hin, hrange⟩
      · rw [List.flatMap_append]
        exact (hrun.congr (hopen.trans hmark.symm) rfl).append hmore
    · obtain ⟨rfl, rfl⟩ := Prod.mk.inj (Except.ok.inj h)
      exact ⟨[], by simp, rfl, (Text.skipBlanks_skipBlanks cs).symm⟩

/-- Where no suffix follows, none is read. -/
theorem suffixes_of_startsIn {cs : List Char} (h : StartsIn afterType cs) (fuel : Nat)
    (base : TypeSyntax) : Reads (suffixes fuel base cs) base cs := by
  cases fuel with
  | zero => exact ⟨cs, rfl, rfl⟩
  | succ fuel =>
    refine ⟨skipBlanks cs, ?_, Text.skipBlanks_skipBlanks cs⟩
    rw [suffixes]
    split
    · exact absurd ‹_› (h.ne (by decide) _)
    · exact absurd ‹_› (h.ne (by decide) _)
    · exact absurd ‹_› (h.ne (by decide) _)
    · rfl

/-- A run of ranks is read at once. -/
theorem suffixes_run {r : Nat} {ranks : List Nat} {cs rest : List Char}
    (h : Spells (runTokens (r :: ranks)) cs rest)
    (hrange : ∀ x ∈ r :: ranks, (TypeSuffix.rank x).InRange)
    (hstop : ∀ more, skipBlanks rest ≠ '[' :: more) (fuel : Nat) (base : TypeSyntax) :
    ∃ rest', skipBlanks rest' = skipBlanks rest ∧
      suffixes (fuel + 1) base cs = suffixes fuel (base.arrays (r :: ranks)) rest' := by
  obtain ⟨mid, hopen, -⟩ := Spells.exists_of_mark h
  have hskip : skipBlanks cs = skipBlanks ('[' :: mid) := by
    rw [hopen, Text.skipBlanks_of_visible (by decide)]
  have hlen : (r :: ranks).length ≤ mid.length + 1 := by
    have hle := length_suffixes_le h
    rwa [List.length_map, hopen] at hle
  obtain ⟨rest', hread, hrest'⟩ := rankRun_complete (h.congr hskip rfl) hrange hlen hstop
  refine ⟨rest', hrest', ?_⟩
  rw [suffixes, hopen]
  simp only [hread]

/-- A rank is read together with all ranks that follow it. -/
theorem suffixes_rank {r : Nat} {list : List TypeSuffix} {cs rest : List Char}
    (h : Spells ((.rank r :: list).flatMap TypeSuffix.tokens) cs rest)
    (hrange : ∀ x ∈ .rank r :: list, x.InRange) (hrest : StartsIn afterType rest) (fuel : Nat)
    (base : TypeSyntax) : ∃ ranks more mid, list = ranks.map .rank ++ more ∧
      base.suffixed (.rank r :: list) = (base.arrays (r :: ranks)).suffixed more ∧
      suffixes (fuel + 1) base cs = suffixes fuel (base.arrays (r :: ranks)) mid ∧
      Spells (more.flatMap TypeSuffix.tokens) mid rest := by
  obtain ⟨ranks, more, rfl, hhead⟩ := TypeSuffix.exists_run list
  have hsplit : Spells (runTokens (r :: ranks) ++ more.flatMap TypeSuffix.tokens) cs rest := by
    rw [runTokens, ← List.flatMap_append]
    exact h
  obtain ⟨mid, hrun, hmore⟩ := hsplit.exists_of_append
  have hranks : ∀ x ∈ r :: ranks, (TypeSuffix.rank x).InRange := by
    intro x hx
    refine hrange _ (List.mem_cons.mpr ((List.mem_cons.mp hx).imp (congrArg _) fun hx => ?_))
    exact List.mem_append_left _ (List.mem_map_of_mem hx)
  obtain ⟨mid', hmid', hstep⟩ :=
    suffixes_run hrun hranks (skipBlanks_ne_open hmore hrest hhead) fuel base
  exact ⟨ranks, more, mid', rfl, TypeSyntax.suffixed_ranks hhead base (r :: ranks), hstep,
    hmore.congr hmid'.symm rfl⟩

theorem suffixes_complete {fuel : Nat} {list : List TypeSuffix} {cs rest : List Char}
    (h : Spells (list.flatMap TypeSuffix.tokens) cs rest) (hrange : ∀ x ∈ list, x.InRange)
    (hrest : StartsIn afterType rest) (hfuel : list.length ≤ fuel) (base : TypeSyntax) :
    Reads (suffixes fuel base cs) (base.suffixed list) rest := by
  induction fuel generalizing list base cs with
  | zero =>
    obtain rfl : list = [] := List.length_eq_zero_iff.mp (Nat.le_zero.mp hfuel)
    exact ⟨cs, rfl, h⟩
  | succ fuel ih =>
    rcases list with _ | ⟨x, list⟩
    · have hcs : skipBlanks cs = skipBlanks rest := h
      obtain ⟨rest', hstep, hrest'⟩ := suffixes_of_startsIn (hrest.congr hcs.symm) (fuel + 1) base
      exact ⟨rest', hstep, hrest'.trans hcs⟩
    have hlen : list.length ≤ fuel := Nat.le_of_succ_le_succ hfuel
    obtain ⟨hx, hlist⟩ := List.forall_mem_cons.mp hrange
    cases x with
    | nullable =>
      obtain ⟨mid, hmark, hmore⟩ := Spells.exists_of_mark h
      rw [suffixes, hmark]
      exact ih hmore hlist hlen (.nullable base)
    | pointer =>
      obtain ⟨mid, hmark, hmore⟩ := Spells.exists_of_mark h
      rw [suffixes, hmark]
      exact ih hmore hlist hlen (.pointer base)
    | rank r =>
      obtain ⟨ranks, more, mid, rfl, htree, hstep, hmore⟩ := suffixes_rank h hrange hrest fuel base
      rw [hstep, htree]
      refine ih hmore (List.forall_mem_append.mp hlist).2 ?_ (base.arrays (r :: ranks))
      rw [List.length_append] at hlen
      omega

/-! ## Calling conventions -/

theorem conventionEnd_append {text : List Char} (h : ']' ∉ text) (rest : List Char) :
    conventionEnd (text ++ ']' :: rest) = .ok rest := by
  induction text with
  | nil => rfl
  | cons c text ih =>
    have hne : c ≠ ']' := (List.ne_of_not_mem_cons h).symm
    rw [List.cons_append, conventionEnd, if_neg (mt beq_iff_eq.mp hne)]
    exact ih (List.not_mem_of_not_mem_cons h)

theorem exists_of_conventionEnd {cs rest : List Char} (h : conventionEnd cs = .ok rest) :
    ∃ text, cs = text ++ ']' :: rest ∧ ']' ∉ text := by
  induction cs with
  | nil => cases h
  | cons c cs ih =>
    rw [conventionEnd] at h
    split at h
    · rename_i hc
      cases h
      exact ⟨[], by rw [beq_iff_eq.mp hc, List.nil_append], List.not_mem_nil⟩
    · rename_i hc
      obtain ⟨text, rfl, hclosed⟩ := ih h
      have hne : ']' ≠ c := fun heq => hc (beq_iff_eq.mpr heq.symm)
      exact ⟨c :: text, rfl, List.not_mem_cons_of_ne_of_not_mem hne hclosed⟩

/-- A keyword is not read where another character stands. -/
theorem afterWord?_eq_none {word : String} {cs mid : List Char} {w c : Char} {ws : List Char}
    (hword : word.toList = w :: ws) (hcs : skipBlanks cs = c :: mid) (hne : w ≠ c) :
    afterWord? word cs = none := by
  rw [Option.eq_none_iff_forall_not_mem]
  intro rest h
  obtain ⟨heq, -⟩ := afterWord?_eq_some.mp h
  rw [hcs, hword] at heq
  exact hne (List.cons.inj heq).1.symm

/-- The text after the word of a convention. -/
theorem conventionWord_eq_some {cs mid : List Char} :
    (afterWord? "managed" cs).or (afterWord? "unmanaged" cs) = some mid ↔
      ∃ word, (word = "managed" ∨ word = "unmanaged") ∧ skipBlanks cs = word.toList ++ mid ∧
        (TypeToken.word word).EndsBefore mid := by
  constructor
  · intro h
    obtain hmanaged | ⟨-, hunmanaged⟩ := Option.or_eq_some_iff.mp h
    · exact ⟨"managed", .inl rfl, afterWord?_eq_some.mp hmanaged⟩
    · exact ⟨"unmanaged", .inr rfl, afterWord?_eq_some.mp hunmanaged⟩
  · rintro ⟨word, hword, hcs, hends⟩
    have hsome : afterWord? word cs = some mid := afterWord?_eq_some.mpr ⟨hcs, hends⟩
    obtain rfl | rfl := hword
    · rw [hsome, Option.some_or]
    · have hnone : afterWord? "managed" cs = none :=
        afterWord?_eq_none (w := 'm') (c := 'u') rfl hcs (by decide)
      rw [hnone, Option.none_or, hsome]

theorem convention_sound {cs rest : List Char} (h : convention cs = .ok rest) :
    ∃ tokens, TypeGrammar.Convention tokens ∧ Spells tokens cs rest := by
  rw [convention] at h
  split at h
  · cases h
    exact ⟨[], .absent, rfl⟩
  rename_i mid hword
  obtain ⟨word, hkey, hcs, hends⟩ := conventionWord_eq_some.mp hword
  split at h
  · rename_i inner hopen
    obtain ⟨text, rfl, hclosed⟩ := exists_of_conventionEnd h
    refine ⟨[.word word, .convention text], .named hkey hclosed,
      mid, hcs, hends, rest, ?_, trivial, rfl⟩
    simpa using hopen
  · cases h
    exact ⟨[.word word], .word hkey, mid, hcs, hends, (Text.skipBlanks_skipBlanks mid).symm⟩

theorem convention_complete {tokens : List TypeToken} {cs rest after : List Char}
    (h : TypeGrammar.Convention tokens) (hcs : Spells tokens cs rest)
    (hrest : skipBlanks rest = '<' :: after) :
    ∃ rest', convention cs = .ok rest' ∧ skipBlanks rest' = skipBlanks rest := by
  rw [convention]
  cases h with
  | absent =>
    have hopen : skipBlanks cs = '<' :: after := Eq.trans hcs hrest
    have hmanaged : afterWord? "managed" cs = none := afterWord?_eq_none rfl hopen (by decide)
    have hunmanaged : afterWord? "unmanaged" cs = none := afterWord?_eq_none rfl hopen (by decide)
    rw [hmanaged, hunmanaged]
    exact ⟨cs, rfl, hcs⟩
  | @word w hkey =>
    obtain ⟨mid, hmid, hends, hmore⟩ := hcs
    have hopen : skipBlanks mid = '<' :: after := Eq.trans hmore hrest
    rw [conventionWord_eq_some.mpr ⟨w, hkey, hmid, hends⟩]
    simp only [hopen]
    exact ⟨'<' :: after, rfl, by rw [← hopen, Text.skipBlanks_skipBlanks, hmore]⟩
  | @named w text hkey hclosed =>
    obtain ⟨mid, hmid, hends, after', hafter, -, hmore⟩ := hcs
    have hopen : skipBlanks mid = '[' :: (text ++ ']' :: after') := by simpa using hafter
    rw [conventionWord_eq_some.mpr ⟨w, hkey, hmid, hends⟩]
    simp only [hopen, conventionEnd_append hclosed]
    exact ⟨after', rfl, hmore⟩

/-! ## Names and arguments

`typeOf` reads the types of `T`. -/

/-- **A reader of types agrees with a grammar**, where what follows ends a type. -/
structure FollowsGrammar (T : List TypeToken → TypeSyntax → Prop)
    (typeOf : List Char → Step TypeSyntax) : Prop where
  sound : ∀ {cs type rest}, typeOf cs = .ok (type, rest) → ∃ tokens, T tokens type ∧
    Spells tokens cs rest
  complete : ∀ {tokens type cs rest}, T tokens type → Spells tokens cs rest →
    StartsIn afterType rest → Reads (typeOf cs) type rest

open TypeGrammar

variable {T : List TypeToken → TypeSyntax → Prop} {typeOf : List Char → Step TypeSyntax}

theorem typeList_sound (hT : FollowsGrammar T typeOf) {fuel : Nat} {types : List TypeSyntax}
    {cs rest : List Char} (h : typeList typeOf fuel cs = .ok (types, rest)) :
    ∃ tokens, Types T tokens types ∧ Spells (tokens ++ [.mark '>']) cs rest := by
  induction fuel generalizing cs types with
  | zero => cases h
  | succ fuel ih =>
    rw [typeList] at h
    split at h
    · cases h
    rename_i type mid htype
    obtain ⟨tokens, hderives, hspells⟩ := hT.sound htype
    split at h
    · rename_i after hcomma
      split at h
      · cases h
      rename_i types' rest' htypes
      obtain ⟨rfl, rfl⟩ := Prod.mk.inj (Except.ok.inj h)
      obtain ⟨more, hmore, hspellsMore⟩ := ih htypes
      refine ⟨tokens ++ .mark ',' :: more, .cons hderives hmore, ?_⟩
      rw [List.append_assoc]
      exact hspells.append (.mark hcomma hspellsMore)
    · rename_i after hclose
      obtain ⟨rfl, rfl⟩ := Prod.mk.inj (Except.ok.inj h)
      exact ⟨tokens, .one hderives, hspells.append (.mark hclose rfl)⟩
    · cases h

theorem typeList_complete (hT : FollowsGrammar T typeOf) {fuel : Nat} {tokens : List TypeToken}
    {types : List TypeSyntax} {cs rest : List Char} (h : Types T tokens types)
    (hcs : Spells (tokens ++ [.mark '>']) cs rest) (hfuel : cs.length < fuel) :
    Reads (typeList typeOf fuel cs) types rest := by
  induction h generalizing fuel cs with
  | @one tokens type h =>
    obtain ⟨mid, hspells, hclose⟩ := hcs.exists_of_append
    obtain ⟨after, hclose, hrest⟩ := Spells.exists_of_mark hclose
    obtain ⟨mid', htype, hmid'⟩ := hT.complete h hspells (startsIn_of_eq hclose (by decide))
    cases fuel with
    | zero => cases hfuel
    | succ fuel =>
      refine ⟨after, ?_, hrest⟩
      rw [typeList]
      simp only [htype, hmid'.trans hclose]
  | @cons tokens more type types h hs ih =>
    rw [List.append_assoc] at hcs
    obtain ⟨mid, hspells, hcomma⟩ := hcs.exists_of_append
    obtain ⟨after, hcomma, hmore⟩ := Spells.exists_of_mark hcomma
    obtain ⟨mid', htype, hmid'⟩ := hT.complete h hspells (startsIn_of_eq hcomma (by decide))
    have hlt : after.length < cs.length := by
      have hle := hspells.length_le
      rwa [hcomma] at hle
    cases fuel with
    | zero => cases hfuel
    | succ fuel =>
      have hfuel : after.length < fuel := by omega
      obtain ⟨rest', htypes, hrest'⟩ := ih hmore hfuel
      refine ⟨rest', ?_, hrest'⟩
      rw [typeList]
      simp only [htype, hmid'.trans hcomma, htypes]

theorem arguments_sound (hT : FollowsGrammar T typeOf) {args : List TypeSyntax}
    {cs rest : List Char} (h : arguments typeOf cs = .ok (args, rest)) :
    ∃ tokens, Arguments T tokens args ∧ Spells tokens cs rest := by
  rw [arguments] at h
  split at h
  · rename_i mid hopen
    obtain ⟨tokens, htypes, hspells⟩ := typeList_sound hT h
    exact ⟨_, .some htypes, .mark hopen hspells⟩
  · obtain ⟨rfl, rfl⟩ := Prod.mk.inj (Except.ok.inj h)
    exact ⟨[], .none, (Text.skipBlanks_skipBlanks cs).symm⟩

theorem arguments_complete (hT : FollowsGrammar T typeOf) {tokens : List TypeToken}
    {args : List TypeSyntax} {cs rest : List Char} (h : Arguments T tokens args)
    (hcs : Spells tokens cs rest) (hrest : ∀ more, skipBlanks rest ≠ '<' :: more) :
    Reads (arguments typeOf cs) args rest := by
  rw [arguments]
  cases h with
  | none =>
    refine ⟨skipBlanks cs, ?_, by rw [Text.skipBlanks_skipBlanks, hcs]⟩
    split
    · rename_i mid hopen
      exact absurd (Eq.trans (Eq.symm hcs) hopen) (hrest mid)
    · rfl
  | some h =>
    obtain ⟨mid, hopen, hmore⟩ := Spells.exists_of_mark hcs
    rw [hopen]
    exact typeList_complete hT h hmore (Nat.lt_succ_self _)

theorem segments_sound (hT : FollowsGrammar T typeOf) {fuel : Nat}
    {list : List (Segment TypeSyntax)} {cs rest : List Char}
    (h : segments typeOf fuel cs = .ok (list, rest)) :
    ∃ tokens, DottedName T tokens list ∧ Spells tokens cs rest := by
  induction fuel generalizing cs list with
  | zero => cases h
  | succ fuel ih =>
    rw [segments] at h
    split at h
    · cases h
    rename_i name after hname
    split at h
    · cases h
    rename_i args mid hargs
    obtain ⟨token, hid, hcs, hends⟩ := identifier_eq_ok.mp hname
    obtain ⟨tokens, hderives, hspells⟩ := arguments_sound hT hargs
    have hsegment : Spells (token :: tokens) cs mid := ⟨after, hcs, hends, hspells⟩
    split at h
    · rename_i next hdot
      split at h
      · cases h
      rename_i more rest' hmore
      obtain ⟨rfl, rfl⟩ := Prod.mk.inj (Except.ok.inj h)
      obtain ⟨tokens', hderives', hspells'⟩ := ih hmore
      exact ⟨_, .cons (.mk hid hderives) hderives', hsegment.append (.mark hdot hspells')⟩
    · obtain ⟨rfl, rfl⟩ := Prod.mk.inj (Except.ok.inj h)
      exact ⟨_, .one (.mk hid hderives),
        hsegment.congr rfl (Text.skipBlanks_skipBlanks mid).symm⟩

/-- A segment is read up to a character that does not continue it. -/
theorem segment_complete (hT : FollowsGrammar T typeOf) {tokens : List TypeToken}
    {segment : Segment TypeSyntax} {cs rest : List Char} (h : NameSegment T tokens segment)
    (hcs : Spells tokens cs rest) (hrest : ∀ more, skipBlanks rest ≠ '<' :: more) :
    ∃ after, identifier cs = .ok (segment.name, after) ∧
      Reads (arguments typeOf after) segment.args rest := by
  obtain ⟨hid, hargs⟩ := h
  obtain ⟨after, hafter, hends, hspells⟩ := hcs
  exact ⟨after, identifier_of_spells hid hafter hends, arguments_complete hT hargs hspells hrest⟩

theorem segments_complete (hT : FollowsGrammar T typeOf) {fuel : Nat} {tokens : List TypeToken}
    {list : List (Segment TypeSyntax)} {cs rest : List Char} (h : DottedName T tokens list)
    (hcs : Spells tokens cs rest) (hrest : StartsIn afterPrimary rest)
    (hfuel : cs.length < fuel) : Reads (segments typeOf fuel cs) list rest := by
  induction h generalizing fuel cs with
  | @one tokens segment h =>
    obtain ⟨after, hname, mid, hargs, hmid⟩ :=
      segment_complete hT h hcs (hrest.ne (by decide))
    cases fuel with
    | zero => cases hfuel
    | succ fuel =>
      refine ⟨skipBlanks mid, ?_, by rw [Text.skipBlanks_skipBlanks, hmid]⟩
      rw [segments]
      simp only [hname, hargs]
      split
      · rename_i next hdot
        exact absurd (hmid.symm.trans hdot) (hrest.ne (by decide) next)
      · rfl
  | @cons tokens more segment list h hs ih =>
    obtain ⟨mid, hspells, hdot⟩ := hcs.exists_of_append
    obtain ⟨next, hdot, hmore⟩ := Spells.exists_of_mark hdot
    obtain ⟨after, hname, mid', hargs, hmid'⟩ :=
      segment_complete hT h hspells (by simp [hdot])
    have hlt : next.length < cs.length := by
      have hle := hspells.length_le
      rwa [hdot] at hle
    cases fuel with
    | zero => cases hfuel
    | succ fuel =>
      have hfuel : next.length < fuel := by omega
      obtain ⟨rest', hlist, hrest'⟩ := ih hmore hfuel
      refine ⟨rest', ?_, hrest'⟩
      rw [segments]
      simp only [hname, hargs, hmid'.trans hdot, hlist]

/-! ## Types -/

theorem functionPointer_sound (hT : FollowsGrammar T typeOf) {type : TypeSyntax}
    {cs rest : List Char} (h : functionPointer typeOf cs = .ok (type, rest)) :
    ∃ convention tokens params ret, type = .fnptr params ret ∧ Convention convention ∧
      Types T tokens (params ++ [ret]) ∧
      Spells (.mark '*' :: (convention ++ .mark '<' :: (tokens ++ [.mark '>']))) cs rest := by
  simp only [functionPointer, bind_eq_ok_iff] at h
  obtain ⟨star, hstar, after, hconvention, inner, hopen, ⟨types, rest'⟩, htypes, h⟩ := h
  obtain ⟨convention, hderives, hspells⟩ := convention_sound hconvention
  obtain ⟨tokens, htokens, hspellsTypes⟩ := typeList_sound hT htypes
  dsimp only at h
  split at h
  · cases h
  rename_i ret hret
  obtain ⟨rfl, rfl⟩ := Prod.mk.inj (Except.ok.inj h)
  have hsplit : types.dropLast ++ [ret] = types := List.dropLast_append_getLast? ret hret
  refine ⟨convention, tokens, types.dropLast, ret, rfl, hderives, hsplit.symm ▸ htokens, ?_⟩
  exact .mark (expect_eq_ok.mp hstar)
    (hspells.append (.mark (expect_eq_ok.mp hopen) hspellsTypes))

theorem functionPointer_complete (hT : FollowsGrammar T typeOf)
    {convention tokens : List TypeToken} {params : List TypeSyntax} {ret : TypeSyntax}
    {cs rest : List Char} (h : Convention convention) (hs : Types T tokens (params ++ [ret]))
    (hcs : Spells (.mark '*' :: (convention ++ .mark '<' :: (tokens ++ [.mark '>']))) cs rest) :
    Reads (functionPointer typeOf cs) (.fnptr params ret) rest := by
  obtain ⟨star, hstar, hcs⟩ := Spells.exists_of_mark hcs
  obtain ⟨mid, hconvention, hcs⟩ := hcs.exists_of_append
  obtain ⟨inner, hopen, htypes⟩ := Spells.exists_of_mark hcs
  obtain ⟨mid', hskip, hmid'⟩ := convention_complete h hconvention hopen
  obtain ⟨rest', hread, hrest'⟩ := typeList_complete hT hs htypes (Nat.lt_succ_self _)
  refine ⟨rest', ?_, hrest'⟩
  simp only [functionPointer, bind_eq_ok_iff]
  refine ⟨star, expect_eq_ok.mpr hstar, mid', hskip, inner,
    expect_eq_ok.mpr (hmid'.trans hopen), _, hread, ?_⟩
  simp

/-- Behind arguments, if there are any, stands an opening bracket or what follows them. -/
theorem Arguments.skipBlanks_ne {tokens : List TypeToken} {args : List TypeSyntax}
    (h : Arguments T tokens args) {cs rest : List Char} (hcs : Spells tokens cs rest) {c : Char}
    (hc : c ≠ '<') (hrest : ∀ more, skipBlanks rest ≠ c :: more) (more : List Char) :
    skipBlanks cs ≠ c :: more := by
  cases h with
  | none => exact Eq.symm hcs ▸ hrest more
  | some h =>
    obtain ⟨mid, hopen, -⟩ := Spells.exists_of_mark hcs
    rw [hopen]
    exact fun heq => hc (List.cons.inj heq).1.symm

/-- A dotted name starts with a token for a name, which no colon follows. -/
theorem DottedName.exists_head {tokens : List TypeToken} {list : List (Segment TypeSyntax)}
    (h : DottedName T tokens list) {cs rest : List Char} (hcs : Spells tokens cs rest)
    (hrest : StartsIn afterPrimary rest) : ∃ token name mid, tokens.head? = some token ∧
      Identifier token name ∧ skipBlanks cs = token.chars ++ mid ∧ token.EndsBefore mid ∧
      ∀ more, skipBlanks mid ≠ ':' :: more := by
  cases h with
  | one h =>
    obtain ⟨hid, hargs⟩ := h
    obtain ⟨mid, hmid, hends, hspells⟩ := hcs
    exact ⟨_, _, mid, rfl, hid, hmid, hends,
      Arguments.skipBlanks_ne hargs hspells (by decide) (hrest.ne (by decide))⟩
  | cons h hs =>
    obtain ⟨hid, hargs⟩ := h
    obtain ⟨after, hspells, hdot⟩ := hcs.exists_of_append
    obtain ⟨mid, hmid, hends, hspells⟩ := hspells
    obtain ⟨next, hdot, -⟩ := Spells.exists_of_mark hdot
    exact ⟨_, _, mid, rfl, hid, hmid, hends,
      Arguments.skipBlanks_ne hargs hspells (by decide) (by simp [hdot])⟩

theorem primary_sound (hT : FollowsGrammar T typeOf) {type : TypeSyntax} {cs rest : List Char}
    (h : primary typeOf cs = .ok (type, rest)) :
    ∃ tokens, Primary T tokens type ∧ Spells tokens cs rest := by
  rw [primary] at h
  split at h
  · rename_i after hword
    obtain ⟨hcs, hends⟩ := afterWord?_eq_some.mp hword
    obtain ⟨convention, tokens, params, ret, rfl, hconvention, htypes, hspells⟩ :=
      functionPointer_sound hT h
    exact ⟨_, .fnptr hconvention htypes, after, hcs, hends, hspells⟩
  rename_i hbare
  rcases hroot : afterPrefix? "global::".toList (skipBlanks cs) with _ | after
  · simp only [hroot] at h
    split at h
    · cases h
    rename_i list rest' hlist
    obtain ⟨rfl, rfl⟩ := Prod.mk.inj (Except.ok.inj h)
    obtain ⟨tokens, hderives, hspells⟩ := segments_sound hT hlist
    refine ⟨tokens, .name hderives ?_, hspells.congr (Text.skipBlanks_skipBlanks cs) rfl⟩
    intro hhead
    obtain ⟨more, rfl⟩ := List.head?_eq_some_iff.mp hhead
    obtain ⟨mid, hmid, hends, -⟩ := hspells
    rw [Text.skipBlanks_skipBlanks] at hmid
    have hsome : afterWord? "delegate" cs = some mid := afterWord?_eq_some.mpr ⟨hmid, hends⟩
    rw [hbare] at hsome
    cases hsome
  · simp only [hroot] at h
    split at h
    · cases h
    rename_i list rest' hlist
    obtain ⟨rfl, rfl⟩ := Prod.mk.inj (Except.ok.inj h)
    obtain ⟨tokens, hderives, hspells⟩ := segments_sound hT hlist
    exact ⟨_, .rooted hderives, after, afterPrefix?_eq_some.mp hroot, trivial, hspells⟩

/-- Where a word stands, the token for a name is that word. -/
theorem eq_word_of_identifier {token : TypeToken} {name word : String} {cs mid after : List Char}
    (hword : isName word = true) (hcs : skipBlanks cs = word.toList ++ after)
    (hends : (TypeToken.word word).EndsBefore after) (hid : Identifier token name)
    (hmid : skipBlanks cs = token.chars ++ mid) (hendsMid : token.EndsBefore mid) :
    token = .word word ∧ mid = after := by
  have hread : identifier cs = .ok (name, mid) := identifier_of_spells hid hmid hendsMid
  have hreadWord : identifier cs = .ok (word, after) :=
    identifier_of_spells ⟨hword, .inl rfl⟩ hcs hends
  obtain ⟨rfl, rfl⟩ := Prod.mk.inj (Except.ok.inj (hread.symm.trans hreadWord))
  refine ⟨hid.2.resolve_right fun hescaped => ?_, rfl⟩
  have hchars : name.toList ++ mid = '@' :: (name.toList ++ mid) := by
    rw [hescaped, TypeToken.chars_escaped, List.cons_append] at hmid
    exact hcs.symm.trans hmid
  have hlen := congrArg List.length hchars
  simp at hlen

/-- A bare name is no keyword and does not start at the global namespace. -/
theorem bare_of_dottedName {tokens : List TypeToken} {list : List (Segment TypeSyntax)}
    (h : DottedName T tokens list) (bare : tokens.head? ≠ some (.word "delegate"))
    {cs rest : List Char} (hcs : Spells tokens cs rest) (hrest : StartsIn afterPrimary rest) :
    afterWord? "delegate" cs = none ∧
      afterPrefix? "global::".toList (skipBlanks cs) = none := by
  obtain ⟨token, name, mid, hhead, hid, hmid, hends, hcolon⟩ := DottedName.exists_head h hcs hrest
  constructor <;> rw [Option.eq_none_iff_forall_not_mem]
  · intro after hword
    obtain ⟨hafter, hendsAfter⟩ := afterWord?_eq_some.mp hword
    obtain ⟨rfl, -⟩ := eq_word_of_identifier (by decide) hafter hendsAfter hid hmid hends
    exact bare hhead
  · intro after hroot
    have hrooted : skipBlanks cs = "global::".toList ++ after := afterPrefix?_eq_some.mp hroot
    have hafter : skipBlanks cs = "global".toList ++ ':' :: ':' :: after := hrooted
    obtain ⟨-, rfl⟩ := eq_word_of_identifier (by decide) hafter
      (endsBefore_cons.mpr (by decide)) hid hmid hends
    exact hcolon _ (Text.skipBlanks_of_visible (by decide) _)

theorem primary_complete (hT : FollowsGrammar T typeOf) {tokens : List TypeToken}
    {type : TypeSyntax} {cs rest : List Char} (h : Primary T tokens type)
    (hcs : Spells tokens cs rest) (hrest : StartsIn afterPrimary rest) :
    Reads (primary typeOf cs) type rest := by
  cases h with
  | name h bare =>
    obtain ⟨hword, hroot⟩ := bare_of_dottedName h bare hcs hrest
    obtain ⟨rest', hread, hrest'⟩ :=
      segments_complete hT h hcs.skipped hrest (Nat.lt_succ_self _)
    refine ⟨rest', ?_, hrest'⟩
    rw [primary, hword]
    simp only [hroot, hread]
  | rooted h =>
    obtain ⟨mid, hmid, -, hspells⟩ := hcs
    have hroot : afterPrefix? "global::".toList (skipBlanks cs) = some mid :=
      afterPrefix?_eq_some.mpr hmid
    have hword : afterWord? "delegate" cs = none :=
      afterWord?_eq_none (w := 'd') (c := 'g') rfl hmid (by decide)
    obtain ⟨rest', hread, hrest'⟩ := segments_complete hT h hspells hrest (Nat.lt_succ_self _)
    refine ⟨rest', ?_, hrest'⟩
    rw [primary, hword]
    simp only [hroot, hread]
  | fnptr h hs =>
    obtain ⟨mid, hmid, hends, hspells⟩ := hcs
    rw [primary, afterWord?_eq_some.mpr ⟨hmid, hends⟩]
    exact functionPointer_complete hT h hs hspells

/-- One level further out. -/
theorem FollowsGrammar.over {depth : Nat} (hT : FollowsGrammar T (typeAt depth)) :
    FollowsGrammar (TypeOver T) (typeAt (depth + 1)) where
  sound := by
    intro cs type rest h
    rw [typeAt] at h
    split at h
    · cases h
    rename_i base mid hbase
    obtain ⟨tokens, hderives, hspells⟩ := primary_sound hT hbase
    obtain ⟨list, hrange, rfl, hmore⟩ := suffixes_sound h
    exact ⟨_, .suffixed list hderives hrange, hspells.append hmore⟩
  complete := by
    intro tokens type cs rest h hcs hrest
    obtain @⟨tokens, base, list, hderives, hrange⟩ := h
    obtain ⟨mid, hspells, hmore⟩ := hcs.exists_of_append
    obtain ⟨mid', hbase, hmid'⟩ :=
      primary_complete hT hderives hspells (startsIn_suffixes hmore hrest)
    have hmore' := hmore.congr hmid'.symm rfl
    have hlen : list.length ≤ mid'.length + 1 :=
      Nat.le_succ_of_le ((length_suffixes_le hmore').trans (Text.length_skipBlanks_le mid'))
    obtain ⟨rest', hread, hrest'⟩ := suffixes_complete hmore' hrange hrest hlen base
    refine ⟨rest', ?_, hrest'⟩
    rw [typeAt]
    simp only [hbase, hread]

/-- **The reader follows the grammar** at each depth. -/
theorem followsGrammar (depth : Nat) : FollowsGrammar (IsType depth) (typeAt depth) := by
  induction depth with
  | zero => exact ⟨fun h => (nomatch h), fun h => h.elim⟩
  | succ depth ih => exact ih.over

/-- **A whole text is a type exactly if the grammar derives it.** -/
theorem whole_eq_ok {cs : List Char} {type : TypeSyntax} : whole cs = .ok type ↔
    ∃ tokens, IsType maxNesting tokens type ∧ Spells tokens cs [] := by
  rw [whole]
  constructor
  · intro h
    split at h
    · cases h
    rename_i type' rest htype
    obtain ⟨tokens, hderives, hspells⟩ := (followsGrammar maxNesting).sound htype
    split at h
    · rename_i hnil
      obtain rfl := Except.ok.inj h
      exact ⟨tokens, hderives, hspells.congr rfl hnil⟩
    · cases h
  · rintro ⟨tokens, hderives, hspells⟩
    obtain ⟨rest, hread, hrest⟩ :=
      (followsGrammar maxNesting).complete hderives hspells (startsIn_nil _)
    have hnil : skipBlanks rest = [] := hrest
    simp only [hread, hnil]

end TypeReader

end LateBridge
