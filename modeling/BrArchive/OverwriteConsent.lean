import BrArchive.EntryPassing
import BrArchive.WhileLoop

/-! # Consent to overwriting

Before a file is extracted over one that exists, the user is asked, unless the policy says
what to do.  The policy is carried from one file to the next, and an answer for all files
changes it.  What follows is about the loop that reads an answer, about any sequence of such
questions, and about those of an extraction.
-/
namespace BrArchive
open WhileLoop

/-! ## The loop that reads an answer -/

/-- The variables of the loop in `bra::fs::file_exists_ask_overwrite`; `again` is what its
condition, or a `break`, has said. -/
structure PromptState where
  c : UInt8
  again : Bool
  input : Bytes

/-- One round: `cin >> c`, which skips white space and fails at the end of the input. -/
def promptRound (singleOverwrite : Bool) (st : PromptState) : Option PromptState :=
  let (c, input) :=
    match st.input.dropWhile isSpace with
    | [] => (110, [])
    | c :: input => (toLower c, input)
  if !singleOverwrite && (c == 97 || c == 111) then some ⟨c, false, input⟩
  else some ⟨c, c != 121 && c != 110, input⟩

/-- **The loop ends** with the answer, however it is bounded. -/
theorem promptLoop_ends (singleOverwrite : Bool) (input : Bytes) :
    ∀ (c : UInt8) (fuel : Nat), input.length < fuel →
      run PromptState.again (promptRound singleOverwrite) fuel ⟨c, true, input⟩ =
        some ⟨(readAnswer singleOverwrite input).1, false,
          (readAnswer singleOverwrite input).2⟩ := by
  induction input with
  | nil =>
    intro c fuel hfuel
    obtain ⟨fuel, rfl⟩ := Nat.exists_eq_succ_of_ne_zero (Nat.ne_of_gt hfuel)
    have hround : promptRound singleOverwrite ⟨c, true, []⟩ = some ⟨110, false, []⟩ := by
      cases singleOverwrite <;> rfl
    rw [Nat.succ_eq_add_one, run_succ_of rfl, hround, Option.bind_some, run_of_not rfl, readAnswer]
  | cons b input ih =>
    intro c fuel hfuel
    obtain ⟨fuel, rfl⟩ := Nat.exists_eq_succ_of_ne_zero (Nat.ne_of_gt (Nat.zero_lt_of_lt hfuel))
    have hfuel : input.length < fuel := Nat.lt_of_succ_lt_succ hfuel
    rw [readAnswer]
    by_cases hspace : isSpace b = true
    · -- white space is skipped within the round
      have hround : promptRound singleOverwrite ⟨c, true, b :: input⟩ =
          promptRound singleOverwrite ⟨c, true, input⟩ := by
        rw [promptRound, promptRound, List.dropWhile_cons_of_pos hspace]
      rw [if_pos hspace, ← ih c (fuel + 1) (Nat.lt_succ_of_lt hfuel), Nat.succ_eq_add_one,
        run_succ_of rfl, run_succ_of rfl, hround]
    · rw [if_neg hspace, Nat.succ_eq_add_one, run_succ_of rfl, promptRound,
        List.dropWhile_cons_of_neg hspace]
      dsimp only
      by_cases hall : (!singleOverwrite && (toLower b == 97 || toLower b == 111)) = true
      · rw [if_pos hall, if_pos hall, Option.bind_some, run_of_not rfl]
      · rw [if_neg hall, if_neg hall, Option.bind_some]
        by_cases hone : (toLower b == 121 || toLower b == 110) = true
        · have hstop : (toLower b != 121 && toLower b != 110) = false := by
            rw [bne, bne, ← Bool.not_or, hone]
            rfl
          rw [if_pos hone, hstop, run_of_not rfl]
        · have hagain : (toLower b != 121 && toLower b != 110) = true := by
            rw [bne, bne, ← Bool.not_or, Bool.not_eq_true _ |>.mp hone]
            rfl
          rw [if_neg hone, hagain, ih (toLower b) fuel hfuel]

/-- The characters that are answers; `'a'` and `'o'` are for all files. -/
def accepts (singleOverwrite : Bool) (b : UInt8) : Bool :=
  (!singleOverwrite && (toLower b == 97 || toLower b == 111)) ||
    (toLower b == 121 || toLower b == 110)

/-- What an answer is to an input: the first character in it that is one, or `'n'` at its end. -/
inductive Answers (singleOverwrite : Bool) : Bytes → UInt8 → Bytes → Prop
  | letter {skipped : Bytes} {b : UInt8} {rest : Bytes}
      (ignored : ∀ x ∈ skipped, accepts singleOverwrite x = false)
      (accepted : accepts singleOverwrite b = true) :
      Answers singleOverwrite (skipped ++ b :: rest) (toLower b) rest
  | eof {input : Bytes} (ignored : ∀ x ∈ input, accepts singleOverwrite x = false) :
      Answers singleOverwrite input 110 []

theorem Answers.skip {singleOverwrite : Bool} {input rest : Bytes} {b c : UInt8}
    (hb : accepts singleOverwrite b = false) (h : Answers singleOverwrite input c rest) :
    Answers singleOverwrite (b :: input) c rest := by
  cases h with
  | @letter skipped b' _ ignored accepted =>
    exact @Answers.letter _ (b :: skipped) _ _ (List.forall_mem_cons.mpr ⟨hb, ignored⟩) accepted
  | eof ignored => exact .eof (List.forall_mem_cons.mpr ⟨hb, ignored⟩)

theorem accepts_space {singleOverwrite : Bool} {b : UInt8} (h : isSpace b = true) :
    accepts singleOverwrite b = false := by
  have hall : ∀ n < 256, isSpace (UInt8.ofNat n) = true →
      ∀ single, accepts single (UInt8.ofNat n) = false := by decide +kernel
  have hb := hall b.toNat b.toNat_lt
  rw [UInt8.ofNat_toNat] at hb
  exact hb h singleOverwrite

/-- **What the loop reads** is the answer. -/
theorem readAnswer_answers (singleOverwrite : Bool) (input : Bytes) :
    Answers singleOverwrite input (readAnswer singleOverwrite input).1
      (readAnswer singleOverwrite input).2 := by
  induction input with
  | nil => exact .eof fun x hx => absurd hx List.not_mem_nil
  | cons b input ih =>
    rw [readAnswer]
    split
    · rename_i hspace
      exact ih.skip (accepts_space hspace)
    · split
      · rename_i hall
        exact @Answers.letter _ [] _ _ (fun x hx => absurd hx List.not_mem_nil)
          (by rw [accepts, hall, Bool.true_or])
      · rename_i hall
        split
        · rename_i hone
          exact @Answers.letter _ [] _ _ (fun x hx => absurd hx List.not_mem_nil)
            (by rw [accepts, hone, Bool.or_true])
        · rename_i hone
          exact ih.skip (by rw [accepts, Bool.not_eq_true _ |>.mp hall,
            Bool.not_eq_true _ |>.mp hone, Bool.or_false])

/-! ## Questions -/

/-- What happens at one call of `bra_fs_file_exists_ask_overwrite`: the answer, if the user was
asked, what the call returns, and the policy and the input before and after. -/
structure Question where
  path : CStr
  existing : Bool
  before : User
  answer : Option UInt8
  overwrite : Bool
  after : User

/-- The call for a file. -/
def askQuestion (singleOverwrite : Bool) (path : CStr) (existing : Bool) (user : User) :
    Question :=
  let r := if existing then fileExistsAskOverwrite user singleOverwrite else (true, user)
  { path
    existing
    before := user
    answer :=
      if existing && user.overwritePolicy == .ask then
        some (readAnswer singleOverwrite user.input).1
      else none
    overwrite := r.1
    after := r.2 }

/-- The calls for one file after the other. -/
def askQuestions (singleOverwrite : Bool) : List (CStr × Bool) → User → List Question
  | [], _ => []
  | (path, existing) :: files, user =>
    let q := askQuestion singleOverwrite path existing user
    q :: askQuestions singleOverwrite files q.after

/-! ## One question -/

/-- What can come of a call: by whether the file exists, the user before, the answer, what the
call returns and the user after. -/
inductive Outcome (singleOverwrite : Bool) : Bool → User → Option UInt8 → Bool → User → Prop
  | missing (user : User) : Outcome singleOverwrite false user none true user
  | alwaysYes (input : Bytes) :
      Outcome singleOverwrite true ⟨.alwaysYes, input⟩ none true ⟨.alwaysYes, input⟩
  | alwaysNo (input : Bytes) :
      Outcome singleOverwrite true ⟨.alwaysNo, input⟩ none false ⟨.alwaysNo, input⟩
  | yes {input rest : Bytes} (answer : Answers singleOverwrite input 121 rest) :
      Outcome singleOverwrite true ⟨.ask, input⟩ (some 121) true ⟨.ask, rest⟩
  | no {input rest : Bytes} (answer : Answers singleOverwrite input 110 rest) :
      Outcome singleOverwrite true ⟨.ask, input⟩ (some 110) false ⟨.ask, rest⟩
  | yesToAll {input rest : Bytes} (several : singleOverwrite = false)
      (answer : Answers singleOverwrite input 97 rest) :
      Outcome singleOverwrite true ⟨.ask, input⟩ (some 97) true ⟨.alwaysYes, rest⟩
  | noToAll {input rest : Bytes} (several : singleOverwrite = false)
      (answer : Answers singleOverwrite input 111 rest) :
      Outcome singleOverwrite true ⟨.ask, input⟩ (some 111) false ⟨.alwaysNo, rest⟩

/-- An answer is one of these letters, and for all files only if there may be several. -/
theorem Answers.letters {singleOverwrite : Bool} {input rest : Bytes} {c : UInt8}
    (h : Answers singleOverwrite input c rest) :
    c = 121 ∨ c = 110 ∨ (singleOverwrite = false ∧ (c = 97 ∨ c = 111)) := by
  cases h with
  | letter ignored accepted =>
    rw [accepts, Bool.or_eq_true, Bool.and_eq_true, Bool.or_eq_true, Bool.or_eq_true] at accepted
    simp only [beq_iff_eq, Bool.not_eq_true'] at accepted
    rcases accepted with hall | hyes | hno
    · exact .inr (.inr hall)
    · exact .inl hyes
    · exact .inr (.inl hno)
  | eof => exact .inr (.inl rfl)

/-- **One question.** -/
theorem askQuestion_outcome (singleOverwrite : Bool) (path : CStr) (existing : Bool)
    (user : User) :
    Outcome singleOverwrite existing user
      (askQuestion singleOverwrite path existing user).answer
      (askQuestion singleOverwrite path existing user).overwrite
      (askQuestion singleOverwrite path existing user).after := by
  cases existing with
  | false => exact .missing user
  | true =>
    obtain ⟨policy, input⟩ := user
    cases policy with
    | alwaysYes => exact .alwaysYes input
    | alwaysNo => exact .alwaysNo input
    | ask =>
      have hanswer := readAnswer_answers singleOverwrite input
      rw [askQuestion, if_pos rfl, fileExistsAskOverwrite]
      dsimp only
      generalize readAnswer singleOverwrite input = r at hanswer ⊢
      obtain ⟨c, rest⟩ := r
      dsimp only at hanswer ⊢
      -- one case for each branch of the switch; a single file is offered y and n only
      rcases hanswer.letters with rfl | rfl | ⟨rfl, rfl | rfl⟩
      · cases singleOverwrite <;> exact .yes hanswer
      · cases singleOverwrite <;> exact .no hanswer
      · exact .yesToAll rfl hanswer
      · exact .noToAll rfl hanswer

/-! ## A sequence of questions -/

/-- What the user can rely on in a sequence of questions. -/
structure Consented (singleOverwrite : Bool) (user : User) (qs : List Question) : Prop where
  /-- A prompt ends, with the answer that is in the input; no one else is asked. -/
  prompt : ∀ q ∈ qs, ∀ c, q.answer = some c →
    Answers singleOverwrite q.before.input c q.after.input ∧
      ∀ c₀ fuel, q.before.input.length < fuel →
        run PromptState.again (promptRound singleOverwrite) fuel ⟨c₀, true, q.before.input⟩ =
          some ⟨c, false, q.after.input⟩
  silent : ∀ q ∈ qs, q.answer = none → q.after.input = q.before.input
  /-- A file is overwritten because that is the policy, or the answer to its own prompt. -/
  consent : ∀ q ∈ qs, q.existing = true → q.overwrite = true →
    q.before.overwritePolicy = .alwaysYes ∨ q.answer = some 121 ∨ q.answer = some 97
  /-- After `'a'` files are overwritten, and no one is asked. -/
  yesToAll : qs.Pairwise fun q r => q.answer = some 97 →
    (r.existing = true → r.overwrite = true) ∧ r.answer = none
  /-- After `'o'` files are kept, and no one is asked. -/
  noToAll : qs.Pairwise fun q r => q.answer = some 111 →
    (r.existing = true → r.overwrite = false) ∧ r.answer = none
  /-- A policy that is settled stays. -/
  settled : ∀ q ∈ qs, q.before.overwritePolicy ≠ .ask →
    q.after.overwritePolicy = q.before.overwritePolicy
  start : user.overwritePolicy ≠ .ask → ∀ q ∈ qs,
    q.before.overwritePolicy = user.overwritePolicy ∧ q.answer = none
  /-- A question about one file only does not change the policy. -/
  single : singleOverwrite = true → ∀ q ∈ qs,
    q.before.overwritePolicy = user.overwritePolicy ∧
      q.after.overwritePolicy = user.overwritePolicy ∧
        q.answer ≠ some 97 ∧ q.answer ≠ some 111

section Several
variable {singleOverwrite : Bool} {existing overwrite : Bool} {user after : User}
  {answer : Option UInt8}

/-- Once the policy is settled it stays, no one is asked, and the policy says what is done. -/
theorem Outcome.settled (h : Outcome singleOverwrite existing user answer overwrite after)
    (hpolicy : user.overwritePolicy ≠ .ask) :
    after = user ∧ answer = none ∧
      (existing = true → overwrite = (user.overwritePolicy == .alwaysYes)) := by
  cases h with
  | missing => exact ⟨rfl, rfl, fun h => absurd h (by decide)⟩
  | alwaysYes => exact ⟨rfl, rfl, fun _ => rfl⟩
  | alwaysNo => exact ⟨rfl, rfl, fun _ => rfl⟩
  | yes => exact absurd rfl hpolicy
  | no => exact absurd rfl hpolicy
  | yesToAll => exact absurd rfl hpolicy
  | noToAll => exact absurd rfl hpolicy

/-- Answers for all files settle the policy, and others do not change it. -/
theorem Outcome.policy (h : Outcome singleOverwrite existing user answer overwrite after) :
    (answer = some 97 ∧ singleOverwrite = false ∧ after.overwritePolicy = .alwaysYes) ∨
      (answer = some 111 ∧ singleOverwrite = false ∧ after.overwritePolicy = .alwaysNo) ∨
      (answer ≠ some 97 ∧ answer ≠ some 111 ∧ after.overwritePolicy = user.overwritePolicy) := by
  cases h with
  | yesToAll several => exact .inl ⟨rfl, several, rfl⟩
  | noToAll several => exact .inr (.inl ⟨rfl, several, rfl⟩)
  | _ => exact .inr (.inr ⟨by simp, by simp, rfl⟩)

/-- An existing file is overwritten because the policy, or its own answer, says so. -/
theorem Outcome.consent (h : Outcome singleOverwrite true user answer true after) :
    user.overwritePolicy = .alwaysYes ∨ answer = some 121 ∨ answer = some 97 := by
  cases h with
  | alwaysYes => exact .inl rfl
  | yes => exact .inr (.inl rfl)
  | yesToAll => exact .inr (.inr rfl)

theorem Outcome.silent (h : Outcome singleOverwrite existing user none overwrite after) :
    after = user := by
  cases h <;> rfl

/-- The answer is what the loop has read. -/
theorem askQuestion_prompt {path : CStr} {c : UInt8}
    (h : (askQuestion singleOverwrite path existing user).answer = some c) :
    readAnswer singleOverwrite user.input =
      (c, (askQuestion singleOverwrite path existing user).after.input) := by
  rw [askQuestion] at h ⊢
  dsimp only at h ⊢
  split at h
  · rename_i hasked
    rw [Bool.and_eq_true, beq_iff_eq] at hasked
    obtain ⟨rfl, hask⟩ := hasked
    rw [if_pos rfl, fileExistsAskOverwrite, hask]
    obtain rfl := Option.some.inj h
    dsimp only
    split
    · rfl
    · split <;> rfl
  · cases h

/-- Each of the questions is one. -/
theorem mem_askQuestions {files : List (CStr × Bool)} {q : Question}
    (h : q ∈ askQuestions singleOverwrite files user) :
    ∃ path existing user', q = askQuestion singleOverwrite path existing user' := by
  induction files generalizing user with
  | nil => cases h
  | cons file files ih =>
    rcases List.mem_cons.mp h with rfl | h
    · exact ⟨file.1, file.2, user, rfl⟩
    · exact ih h

theorem outcome_of_mem {files : List (CStr × Bool)} {q : Question}
    (h : q ∈ askQuestions singleOverwrite files user) :
    Outcome singleOverwrite q.existing q.before q.answer q.overwrite q.after := by
  obtain ⟨path, existing, user', rfl⟩ := mem_askQuestions h
  exact askQuestion_outcome singleOverwrite path existing user'

/-- **Settled** before the first question, the policy stays so, and no one is asked. -/
theorem askQuestions_settled (hpolicy : user.overwritePolicy ≠ .ask)
    (files : List (CStr × Bool)) :
    ∀ q ∈ askQuestions singleOverwrite files user, q.before = user ∧ q.answer = none ∧
      (q.existing = true → q.overwrite = (user.overwritePolicy == .alwaysYes)) := by
  induction files with
  | nil => exact fun q hq => absurd hq List.not_mem_nil
  | cons file files ih =>
    obtain ⟨path, existing⟩ := file
    obtain ⟨hafter, hanswer, hwhat⟩ :=
      (askQuestion_outcome singleOverwrite path existing user).settled hpolicy
    intro q hq
    rcases List.mem_cons.mp hq with rfl | hq
    · exact ⟨rfl, hanswer, hwhat⟩
    · rw [hafter] at hq
      exact ih q hq

/-- An answer for all files settles all the questions that follow. -/
theorem askQuestions_pairwise {c : UInt8} {policy : OverwritePolicy} (hne : policy ≠ .ask)
    (hc : ∀ {existing user answer overwrite after},
      Outcome singleOverwrite existing user answer overwrite after → answer = some c →
        after.overwritePolicy = policy) (files : List (CStr × Bool)) :
    (askQuestions singleOverwrite files user).Pairwise fun q r => q.answer = some c →
      (r.existing = true → r.overwrite = (policy == .alwaysYes)) ∧ r.answer = none := by
  induction files generalizing user with
  | nil => exact List.Pairwise.nil
  | cons file files ih =>
    obtain ⟨path, existing⟩ := file
    refine List.Pairwise.cons (fun r hr hq => ?_) ih
    have hpolicy := hc (askQuestion_outcome singleOverwrite path existing user) hq
    obtain ⟨-, hanswer, hwhat⟩ := askQuestions_settled (hpolicy ▸ hne) files r hr
    exact ⟨hpolicy ▸ hwhat, hanswer⟩

/-- **With one file at a time** the policy stays what it is. -/
theorem askQuestions_single (files : List (CStr × Bool)) :
    ∀ q ∈ askQuestions true files user,
      q.before.overwritePolicy = user.overwritePolicy ∧
        q.after.overwritePolicy = user.overwritePolicy ∧
          q.answer ≠ some 97 ∧ q.answer ≠ some 111 := by
  induction files generalizing user with
  | nil => exact fun q hq => absurd hq List.not_mem_nil
  | cons file files ih =>
    obtain ⟨path, existing⟩ := file
    have hpolicy := (askQuestion_outcome true path existing user).policy
    simp only [Bool.true_eq_false, false_and, and_false, false_or] at hpolicy
    obtain ⟨hall, hnone, hafter⟩ := hpolicy
    intro q hq
    rcases List.mem_cons.mp hq with rfl | hq
    · exact ⟨rfl, hafter, hall, hnone⟩
    · rw [← hafter]
      exact ih q hq

/-- **Any sequence of questions.** -/
theorem askQuestions_consented (singleOverwrite : Bool) (files : List (CStr × Bool))
    (user : User) : Consented singleOverwrite user (askQuestions singleOverwrite files user) where
  prompt q hq c hc := by
    obtain ⟨path, existing, user', rfl⟩ := mem_askQuestions hq
    have hread := askQuestion_prompt hc
    have hanswer := readAnswer_answers singleOverwrite user'.input
    rw [hread] at hanswer
    refine ⟨hanswer, fun c₀ fuel hfuel => ?_⟩
    have hends := promptLoop_ends singleOverwrite user'.input c₀ fuel hfuel
    rw [hread] at hends
    exact hends
  silent q hq hnone := by
    have houtcome := outcome_of_mem hq
    rw [hnone] at houtcome
    rw [houtcome.silent]
  consent q hq hexisting hoverwrite := by
    have houtcome := outcome_of_mem hq
    rw [hexisting, hoverwrite] at houtcome
    exact houtcome.consent
  yesToAll := by
    have hne : OverwritePolicy.alwaysYes ≠ .ask := by decide
    refine askQuestions_pairwise hne (fun h hc => ?_) files
    -- only "A" moves the policy from ask to always yes
    rcases h.policy with ⟨-, -, hpolicy⟩ | ⟨hne, -⟩ | ⟨hne, -⟩
    · exact hpolicy
    · rw [hne] at hc
      cases hc
    · exact absurd hc hne
  noToAll := by
    have hne : OverwritePolicy.alwaysNo ≠ .ask := by decide
    refine askQuestions_pairwise hne (fun h hc => ?_) files
    -- only "N" moves it to always no
    rcases h.policy with ⟨hne, -⟩ | ⟨-, -, hpolicy⟩ | ⟨-, hne, -⟩
    · rw [hne] at hc
      cases hc
    · exact hpolicy
    · exact absurd hc hne
  settled q hq hpolicy := by rw [((outcome_of_mem hq).settled hpolicy).1]
  start hpolicy q hq := by
    obtain ⟨hbefore, hanswer, -⟩ := askQuestions_settled hpolicy files q hq
    exact ⟨congrArg User.overwritePolicy hbefore, hanswer⟩
  single hsingle q hq := by
    subst hsingle
    exact askQuestions_single files q hq

end Several

/-! ## The questions of an extraction -/

section Extraction
variable {σ : Type} (fs : FileSystem σ)

/-- The question that comes up in `bra_io_file_ctx_decode_and_write_to_disk`: there is one for
a file, once its header has been checked. -/
def questionOf (ctx : IoFileCtx) (user : User) (s : σ) : Option Question := do
  let (me, ctx) ← braIoFileCtxReadMetaEntry ctx
  let (buf, _) ← braIoFileCtxReconstructMetaEntryName ctx me
  let fn := CStr.ofBuffer buf
  let me ← checkHeader buf fn.bytes.length me
  match braAttrType me.attributes with
  | .file => some (askQuestion false fn (fs.fileExists s fn) user)
  | _ => none

/-- The questions of the loop of `unbra`, which ends with the first entry that fails. -/
def questions : Nat → IoFileCtx → User → σ → List Question
  | 0, _, _, _ => []
  | n + 1, ctx, user, s =>
    (questionOf fs ctx user s).toList ++
      match braIoFileCtxDecodeAndWriteToDisk fs ctx user s with
      | none => []
      | some (ctx, user, s) => questions n ctx user s

/-! ## The files of the disk -/

/-- A disk that `bra_io_file_ctx_decode_and_write_to_disk` may leave, also when it fails.  A file
that has been opened has any contents then. -/
inductive EntryLeaves (ctx : IoFileCtx) (user : User) (s : σ) : σ → Prop
  | stays : EntryLeaves ctx user s s
  | makesDir {path : CStr} {s' : σ} (noQuestion : questionOf fs ctx user s = none)
      (made : extractDir fs s path = some s') : EntryLeaves ctx user s s'
  | writes {q : Question} {s' : σ} (contents : Bytes)
      (question : questionOf fs ctx user s = some q) (overwrite : q.overwrite = true)
      (opened : fs.openWrite s q.path = some s') :
      EntryLeaves ctx user s (fs.closeWrite s' q.path contents)

/-- The file at `path` has been opened, and has got the contents of an entry. -/
def Extracted (path : CStr) (s t : σ) : Prop :=
  ∃ s' f me r, fs.openWrite s path = some s' ∧ extractContents ⟨[], 0⟩ f me = some r ∧
    t = fs.closeWrite s' path (r.1.elim [] IoFile.data)

/-- A disk that the loop of `unbra` may leave, wherever it stops. -/
inductive ExtractionLeaves : Nat → IoFileCtx → User → σ → σ → Prop
  | stays {n : Nat} {ctx : IoFileCtx} {user : User} {s : σ} : ExtractionLeaves n ctx user s s
  | stops {n : Nat} {ctx : IoFileCtx} {user : User} {s t : σ} (left : EntryLeaves fs ctx user s t) :
      ExtractionLeaves (n + 1) ctx user s t
  | next {n : Nat} {ctx ctx' : IoFileCtx} {user user' : User} {s s' t : σ}
      (decoded : braIoFileCtxDecodeAndWriteToDisk fs ctx user s = some (ctx', user', s'))
      (left : ExtractionLeaves n ctx' user' s' t) : ExtractionLeaves (n + 1) ctx user s t

/-- The loop of `unbra` gets to an entry: at `ctx'`, with the user `user'` and on the disk `s'`. -/
inductive ReachesEntry : Nat → IoFileCtx → User → σ → IoFileCtx → User → σ → Prop
  | here {n : Nat} {ctx : IoFileCtx} {user : User} {s : σ} :
      ReachesEntry (n + 1) ctx user s ctx user s
  | next {n : Nat} {ctx₀ ctx ctx' : IoFileCtx} {user₀ user user' : User} {s₀ s s' : σ}
      (decoded : braIoFileCtxDecodeAndWriteToDisk fs ctx₀ user₀ s₀ = some (ctx, user, s))
      (reached : ReachesEntry n ctx user s ctx' user' s') :
      ReachesEntry (n + 1) ctx₀ user₀ s₀ ctx' user' s'

/-- A file system in which only writing changes a file.  Several paths may lead to one, and
`same s p path` says that `p` and `path` do. -/
structure FileSystem.LeavesFiles (same : σ → CStr → CStr → Prop) (view : σ → DiskView) :
    Prop where
  fileExists : ∀ s path p contents, view s p = some (.file contents) → same s p path →
    fs.fileExists s path = true
  dirMake : ∀ s s' path, fs.dirMake s path = some s' →
    ∀ p contents, view s p = some (.file contents) → view s' p = some (.file contents)
  openWrite : ∀ s s' path, fs.openWrite s path = some s' →
    ∀ p contents, view s p = some (.file contents) → ¬ same s p path →
      view s' p = some (.file contents) ∧ ¬ same s' p path
  closeWrite : ∀ s path contents p old, view s p = some (.file old) → ¬ same s p path →
    view (fs.closeWrite s path contents) p = some (.file old)

/-- **What an extraction does to the files**, by the questions that come up in it. -/
structure FilesKept (n : Nat) (ctx : IoFileCtx) (user : User) (s : σ) : Prop where
  /-- The disk of an extraction that succeeds is one of those it may leave. -/
  left : ∀ ctx' user' t, decodeEntries fs n ctx user s = some (ctx', user', t) →
    ExtractionLeaves fs n ctx user s t
  asked : ∀ ctx' user' s' q, ReachesEntry fs n ctx user s ctx' user' s' →
    questionOf fs ctx' user' s' = some q → q ∈ questions fs n ctx user s
  /-- What is not to be overwritten is not touched, whether the entry is passed or fails. -/
  declined : ∀ ctx' user' s' q, ReachesEntry fs n ctx user s ctx' user' s' →
    questionOf fs ctx' user' s' = some q → q.overwrite = false →
      ∀ t, EntryLeaves fs ctx' user' s' t → t = s'
  /-- What is to be overwritten has the contents of the entry, if that is passed. -/
  overwritten : ∀ ctx' user' s' q, ReachesEntry fs n ctx user s ctx' user' s' →
    questionOf fs ctx' user' s' = some q → q.overwrite = true →
      ∀ ctx₁ user₁ t, braIoFileCtxDecodeAndWriteToDisk fs ctx' user' s' = some (ctx₁, user₁, t) →
        Extracted fs q.path s' t
  /-- A file that is there stays as it is, unless a question about it has had yes as its answer. -/
  kept : ∀ same view, fs.LeavesFiles same view → ∀ p contents, view s p = some (.file contents) →
    ∀ t, ExtractionLeaves fs n ctx user s t → view t p = some (.file contents) ∨
      ∃ ctx' user' s' q, ReachesEntry fs n ctx user s ctx' user' s' ∧
        questionOf fs ctx' user' s' = some q ∧ same s' p q.path ∧ q.existing = true ∧
        q.overwrite = true

variable {fs} {ctx ctx' : IoFileCtx} {user user' : User} {s s' : σ}

theorem questionOf_eq_some {q : Question} (h : questionOf fs ctx user s = some q) :
    q = askQuestion false q.path (fs.fileExists s q.path) user := by
  rw [questionOf] at h
  obtain ⟨⟨me, ctx₁⟩, -, h⟩ := Option.bind_eq_some_iff.mp h
  obtain ⟨⟨buf, len⟩, -, h⟩ := Option.bind_eq_some_iff.mp h
  obtain ⟨me₁, -, h⟩ := Option.bind_eq_some_iff.mp h
  split at h
  · rw [← Option.some.inj h]
    rfl
  · cases h

/-- A directory that is made, or is there, leaves the files as they are. -/
theorem FileSystem.LeavesFiles.extractDir {same : σ → CStr → CStr → Prop} {view : σ → DiskView}
    (hfs : fs.LeavesFiles same view) {path : CStr} (h : extractDir fs s path = some s') {p : CStr}
    {contents : Bytes} (hp : view s p = some (.file contents)) :
    view s' p = some (.file contents) := by
  rw [BrArchive.extractDir] at h
  split at h
  · rwa [← Option.some.inj h]
  · exact hfs.dirMake s s' path h p contents hp

/-- **One entry**: the user is as the question leaves him, and the disk is one that the entry may
leave, with the contents of the entry if the file is to be overwritten. -/
theorem decode_question
    (h : braIoFileCtxDecodeAndWriteToDisk fs ctx user s = some (ctx', user', s')) :
    user' = (questionOf fs ctx user s).elim user Question.after ∧ EntryLeaves fs ctx user s s' ∧
      ∀ q, questionOf fs ctx user s = some q → q.overwrite = true → Extracted fs q.path s s' := by
  rw [braIoFileCtxDecodeAndWriteToDisk] at h
  obtain ⟨⟨me, ctx₁⟩, hread, h⟩ := Option.bind_eq_some_iff.mp h
  obtain ⟨⟨buf, len⟩, hbuf, h⟩ := Option.bind_eq_some_iff.mp h
  obtain ⟨me₁, hcheck, h⟩ := Option.bind_eq_some_iff.mp h
  dsimp only at h
  have hquestion : questionOf fs ctx user s =
      match braAttrType me₁.attributes with
      | .file => some (askQuestion false (CStr.ofBuffer buf)
          (fs.fileExists s (CStr.ofBuffer buf)) user)
      | _ => none := by
    simp only [questionOf, hread, hbuf, hcheck, Option.bind_eq_bind, Option.bind_some]
  have hdir : braAttrType me₁.attributes ≠ .file → questionOf fs ctx user s = none := by
    intro hne
    rw [hquestion]
    split
    · exact absurd ‹_› hne
    · rfl
  split at h
  · rename_i htype
    rw [htype] at hquestion
    rw [hquestion]
    split at h
    · rename_i hkept
      -- the file is kept
      obtain ⟨f, -, h⟩ := Option.bind_eq_some_iff.mp h
      obtain ⟨-, rfl, rfl⟩ := Option.some.inj h
      refine ⟨rfl, .stays, fun q hq hoverwrite => ?_⟩
      rw [← Option.some.inj hq] at hoverwrite
      rw [Bool.not_eq_true'] at hkept
      exact absurd (hkept.symm.trans hoverwrite) Bool.false_ne_true
    · rename_i hoverwrite
      obtain ⟨s₁, hopen, h⟩ := Option.bind_eq_some_iff.mp h
      obtain ⟨r, hcontents, h⟩ := Option.bind_eq_some_iff.mp h
      obtain ⟨ctx₂, -, h⟩ := Option.bind_eq_some_iff.mp h
      obtain ⟨-, rfl, rfl⟩ := Option.some.inj h
      refine ⟨rfl, .writes _ hquestion ?_ hopen, fun q hq _ => ?_⟩
      · rwa [Bool.not_eq_true', Bool.not_eq_false] at hoverwrite
      · rw [← Option.some.inj hq]
        exact ⟨s₁, _, _, r, hopen, hcontents, rfl⟩
  · rename_i htype
    obtain ⟨s₁, hmake, h⟩ := Option.bind_eq_some_iff.mp h
    obtain ⟨ctx₂, -, h⟩ := Option.bind_eq_some_iff.mp h
    obtain ⟨-, rfl, rfl⟩ := Option.some.inj h
    have hnone := hdir (by rw [htype]; decide)
    rw [hnone]
    exact ⟨rfl, .makesDir hnone hmake, fun q hq => absurd hq (Option.some_ne_none q).symm⟩
  · rename_i htype
    obtain ⟨s₁, hmake, h⟩ := Option.bind_eq_some_iff.mp h
    obtain ⟨ctx₂, -, h⟩ := Option.bind_eq_some_iff.mp h
    obtain ⟨-, rfl, rfl⟩ := Option.some.inj h
    have hnone := hdir (by rw [htype]; decide)
    rw [hnone]
    exact ⟨rfl, .makesDir hnone hmake, fun q hq => absurd hq (Option.some_ne_none q).symm⟩
  · cases h

/-- **One entry** changes no file but the one that may be overwritten. -/
theorem EntryLeaves.keeps {same : σ → CStr → CStr → Prop} {view : σ → DiskView}
    (h : EntryLeaves fs ctx user s s') (hfs : fs.LeavesFiles same view) {p : CStr}
    {contents : Bytes} (hp : view s p = some (.file contents)) :
    view s' p = some (.file contents) ∨ ∃ q, questionOf fs ctx user s = some q ∧
      same s p q.path ∧ q.existing = true ∧ q.overwrite = true := by
  cases h with
  | stays => exact .inl hp
  | makesDir _ made => exact .inl (hfs.extractDir made hp)
  | @writes q s₁ contents' question overwrite opened =>
    by_cases hsame : same s p q.path
    · refine .inr ⟨q, question, hsame, ?_, overwrite⟩
      rw [questionOf_eq_some question]
      exact hfs.fileExists s q.path p contents hp hsame
    · obtain ⟨hp₁, hother⟩ := hfs.openWrite s s₁ q.path opened p contents hp hsame
      exact .inl (hfs.closeWrite s₁ q.path contents' p contents hp₁ hother)

/-- The questions of an extraction are a sequence of questions. -/
theorem questions_eq_askQuestions (n : Nat) :
    ∀ (ctx : IoFileCtx) (user : User) (s : σ),
      ∃ files, questions fs n ctx user s = askQuestions false files user := by
  induction n with
  | zero => exact fun _ _ _ => ⟨[], rfl⟩
  | succ n ih =>
    intro ctx user s
    -- the user after this entry is the one the remaining entries find
    have hrest : ∀ user', (∀ r, braIoFileCtxDecodeAndWriteToDisk fs ctx user s = some r →
        r.2.1 = user') → ∃ files, (match braIoFileCtxDecodeAndWriteToDisk fs ctx user s with
          | none => []
          | some (ctx, user, s) => questions fs n ctx user s) = askQuestions false files user' := by
      intro user' huser
      cases hdecode : braIoFileCtxDecodeAndWriteToDisk fs ctx user s with
      | none => exact ⟨[], rfl⟩
      | some r =>
        obtain rfl := huser r hdecode
        exact ih r.1 r.2.1 r.2.2
    rw [questions]
    cases hq : questionOf fs ctx user s with
    | none =>
      refine hrest user fun r hr => ?_
      have huser := (decode_question hr).1
      rw [hq] at huser
      exact huser
    | some q =>
      -- an entry that asks puts its own path in front of the files of the rest
      obtain ⟨files, hfiles⟩ := hrest q.after fun r hr => by
        have huser := (decode_question hr).1
        rw [hq] at huser
        exact huser
      refine ⟨(q.path, fs.fileExists s q.path) :: files, ?_⟩
      rw [hfiles, askQuestions, ← questionOf_eq_some hq]
      rfl

/-- The disk of an extraction that succeeds. -/
theorem decodeEntries_leaves (n : Nat) : ∀ {ctx : IoFileCtx} {user : User} {s : σ},
    decodeEntries fs n ctx user s = some (ctx', user', s') →
      ExtractionLeaves fs n ctx user s s' := by
  induction n with
  | zero =>
    intro ctx user s h
    obtain ⟨-, -, rfl⟩ := Option.some.inj h
    exact .stays
  | succ n ih =>
    intro ctx user s h
    obtain ⟨⟨ctx₁, user₁, s₁⟩, hdecode, h⟩ := Option.bind_eq_some_iff.mp h
    exact .next hdecode (ih h)

theorem ReachesEntry.mem_questions {n : Nat} {q : Question}
    (h : ReachesEntry fs n ctx user s ctx' user' s')
    (hq : questionOf fs ctx' user' s' = some q) : q ∈ questions fs n ctx user s := by
  induction h with
  | here =>
    rw [questions, hq]
    exact List.mem_cons_self
  | next decoded _ ih =>
    rw [questions, decoded]
    exact List.mem_append_right _ (ih hq)

/-- **A whole extraction keeps the files** that there was no consent to overwrite. -/
theorem ExtractionLeaves.keeps {same : σ → CStr → CStr → Prop} {view : σ → DiskView} {n : Nat}
    {t : σ} (h : ExtractionLeaves fs n ctx user s t) (hfs : fs.LeavesFiles same view) {p : CStr}
    {contents : Bytes} (hp : view s p = some (.file contents)) :
    view t p = some (.file contents) ∨
      ∃ ctx' user' s' q, ReachesEntry fs n ctx user s ctx' user' s' ∧
        questionOf fs ctx' user' s' = some q ∧ same s' p q.path ∧ q.existing = true ∧
        q.overwrite = true := by
  induction h with
  | stays => exact .inl hp
  | stops left =>
    refine (left.keeps hfs hp).imp_right fun h => ?_
    obtain ⟨q, hq⟩ := h
    exact ⟨_, _, _, q, .here, hq⟩
  | next decoded _ ih =>
    rcases (decode_question decoded).2.1.keeps hfs hp with hp₁ | ⟨q, hq⟩
    · -- the file is as it was, and so are the questions about it that follow
      refine (ih hp₁).imp_right fun h => ?_
      obtain ⟨ctx', user', s', q, hreached, hq⟩ := h
      exact ⟨ctx', user', s', q, .next decoded hreached, hq⟩
    · exact .inr ⟨_, _, _, q, .here, hq⟩

/-- **What an extraction does to the files**, whatever the archive and the file system are. -/
theorem extraction_filesKept (fs : FileSystem σ) (n : Nat) (ctx : IoFileCtx) (user : User)
    (s : σ) : FilesKept fs n ctx user s where
  left _ _ _ h := decodeEntries_leaves n h
  asked _ _ _ _ hreached hq := hreached.mem_questions hq
  declined ctx' user' s' q _ hq hkept t hleft := by
    cases hleft with
    | stays => rfl
    | makesDir noQuestion =>
      rw [noQuestion] at hq
      cases hq
    | writes _ question overwrite =>
      obtain rfl := Option.some.inj (question.symm.trans hq)
      exact absurd (hkept.symm.trans overwrite) Bool.false_ne_true
  overwritten _ _ _ q _ hq hoverwrite _ _ _ hdecode := (decode_question hdecode).2.2 q hq hoverwrite
  kept _ _ hfs _ _ hp _ hleft := hleft.keeps hfs hp

end Extraction

theorem FileSystem.inMemory_leavesFiles :
    FileSystem.inMemory.LeavesFiles (fun _ p path => p = path) id where
  fileExists view p path contents h hsame := by
    subst hsame
    rw [id] at h
    simp only [inMemory, h]
  dirMake view view' path h p contents hp := by
    simp only [inMemory] at h
    split at h
    · rename_i hnone
      obtain rfl := Option.some.inj h
      have hne : p ≠ path := by
        rintro rfl
        rw [id, hnone] at hp
        cases hp
      rw [id, Function.update_of_ne hne]
      exact hp
    · cases h
  openWrite view view' path h p contents hp hne := by
    simp only [inMemory] at h
    split at h
    · cases h
    · obtain rfl := Option.some.inj h
      exact ⟨(Function.update_of_ne hne _ _).trans hp, hne⟩
  closeWrite view path contents p old hp hne := (Function.update_of_ne hne _ _).trans hp

/-- **No file is overwritten without consent.**  For every policy at the start and every input:
any sequence of questions, whether for all files or for one at a time, is one in which the user
can rely on the answers; the questions of every extraction are such a sequence; and on the disk
an extraction keeps every file that it has not been allowed to overwrite by one of them, wherever
it stops. -/
theorem overwrite_consented (user : User) :
    (∀ (singleOverwrite : Bool) (files : List (CStr × Bool)),
      Consented singleOverwrite user (askQuestions singleOverwrite files user)) ∧
    ∀ (σ : Type) (fs : FileSystem σ) (n : Nat) (ctx : IoFileCtx) (s : σ),
      Consented false user (questions fs n ctx user s) ∧ FilesKept fs n ctx user s := by
  refine ⟨fun singleOverwrite files => askQuestions_consented singleOverwrite files user, ?_⟩
  intro σ fs n ctx s
  obtain ⟨files, hfiles⟩ : ∃ files, questions fs n ctx user s = askQuestions false files user :=
    questions_eq_askQuestions n ctx user s
  rw [hfiles]
  exact ⟨askQuestions_consented false files user, extraction_filesKept fs n ctx user s⟩

/-- A disk with the file `a`. -/
def diskWithA : DiskView :=
  Function.update (fun _ => none) (CStr.ofBuffer [97]) (some (.file [1, 2, 3]))

/-- An archive with a file `a` over one that is there: after no it is kept, wherever the extraction
stops, and after yes it has the contents of the entry. -/
theorem overwrite_consented_stored :
    (∀ t, ExtractionLeaves FileSystem.inMemory 1 (readerAt storedArchive 8) ⟨.ask, [110]⟩
      diskWithA t → t (CStr.ofBuffer [97]) = some (.file [1, 2, 3])) ∧
    ∃ t, ExtractionLeaves FileSystem.inMemory 1 (readerAt storedArchive 8) ⟨.ask, [121]⟩
      diskWithA t ∧ t (CStr.ofBuffer [97]) = some (.file [98]) := by
  have hfiles := fun user => ((overwrite_consented user).2 _ FileSystem.inMemory 1
    (readerAt storedArchive 8) diskWithA).2
  constructor
  · intro t hleft
    rcases (hfiles ⟨.ask, [110]⟩).kept _ _ FileSystem.inMemory_leavesFiles (CStr.ofBuffer [97])
      [1, 2, 3] (by decide) t hleft with hkept | ⟨_, _, _, q, hreached, hq, -, -, hoverwrite⟩
    · exact hkept
    · have hdeclined : ∀ q ∈ questions FileSystem.inMemory 1 (readerAt storedArchive 8)
          ⟨.ask, [110]⟩ diskWithA, q.overwrite = false := by
        decide +kernel
      rw [hdeclined q ((hfiles _).asked _ _ _ q hreached hq)] at hoverwrite
      cases hoverwrite
  · have hrun : (decodeEntries FileSystem.inMemory 1 (readerAt storedArchive 8) ⟨.ask, [121]⟩
        diskWithA).map (fun r => r.2.2 (CStr.ofBuffer [97])) = some (some (.file [98])) := by
      decide +kernel
    obtain ⟨r, hdecode, hview⟩ := Option.map_eq_some_iff.mp hrun
    exact ⟨r.2.2, (hfiles _).left r.1 r.2.1 r.2.2 hdecode, hview⟩

end BrArchive
