import OcEarley.Base.Lists
import OcEarley.Formal.Regex
import OcEarley.Grammar.Expression

/-!
# Rendering expressions as patterns

`pattern` emits the text of an expression from an explicit stack of frames.  `render` is the text by
recursion on the expression: the loop emits it (`wp_emit`), and it is a regular expression for the
language of the expression (`regexDenotes_render`), whatever stands in its atoms.
-/

namespace OcEarley

namespace RegularExpression

/-! ### The loop -/

/-- What the renderer has left to write: an expression, or a text that is written as it is. -/
inductive Frame
  | expression (e : RegularExpression)
  | text (text : String)

/-- `reserve_frames`, of frames with `frameSize` bytes each. -/
def reserveFrames (frameSize stackLength additional byteLimit : ℕ) : Except CompileError Unit := do
  Result.require (stackLength + additional ≤ usizeMax)
    (.resourceLimitExceeded .nfaConstruction usizeMax byteLimit)
  Result.require ((stackLength + additional) * frameSize ≤ usizeMax)
    (.resourceLimitExceeded .nfaConstruction usizeMax byteLimit)
  enforceCompileLimit .nfaConstruction ((stackLength + additional) * frameSize) byteLimit

/-- `append_pattern`; `capacity` is that of a text for which so much room was asked. -/
def appendPattern (capacity : ℕ → ℕ) (pattern text : String) (limit : ℕ) :
    Except CompileError String := do
  let required := pattern.utf8ByteSize + text.utf8ByteSize
  Result.require (required ≤ usizeMax) (.resourceLimitExceeded .nfaConstruction usizeMax limit)
  Result.require (required ≤ limit) (.resourceLimitExceeded .nfaConstruction required limit)
  enforceCompileLimit .nfaConstruction (capacity required) limit
  pure (pattern ++ text)

/-- The frames of a concatenation, its first part on top. -/
def pushParts (parts : List RegularExpression) (stack : List Frame) : List Frame :=
  parts.foldr (fun part stack => .text "(?:" :: .expression part :: .text ")" :: stack) stack

/-- The frames of the branches, with a bar before each but the first. -/
def pushBranches (branches : List RegularExpression) (stack : List Frame) : List Frame :=
  branches.zipIdx.foldr (fun entry stack =>
    if entry.2 ≠ 0 then .text "|" :: .expression entry.1 :: stack
    else .expression entry.1 :: stack) stack

/-- The loop of `pattern_with_limit`. -/
def emit (frameSize : ℕ) (capacity : ℕ → ℕ) (limit : ℕ) :
    ℕ → String → List Frame → Except CompileError String
  | _, pattern, [] => pure pattern
  | 0, _, _ :: _ => throw .diverged
  | fuel + 1, pattern, .text text :: stack => do
    let pattern ← appendPattern capacity pattern text limit
    emit frameSize capacity limit fuel pattern stack
  | _ + 1, _, .expression .empty :: _ =>
    throw (.internalInvariant "empty expression remained inside a regular expression")
  | fuel + 1, pattern, .expression .epsilon :: stack =>
    emit frameSize capacity limit fuel pattern stack
  | fuel + 1, pattern, .expression (.atom forward _) :: stack => do
    let pattern ← appendPattern capacity pattern forward limit
    emit frameSize capacity limit fuel pattern stack
  | fuel + 1, pattern, .expression (.concat parts) :: stack => do
    Result.require (parts.length * 3 ≤ usizeMax)
      (.resourceLimitExceeded .nfaConstruction usizeMax limit)
    reserveFrames frameSize stack.length (parts.length * 3) limit
    emit frameSize capacity limit fuel pattern (pushParts parts stack)
  | fuel + 1, pattern, .expression (.union branches) :: stack => do
    Result.require (branches.length * 2 + 1 ≤ usizeMax)
      (.resourceLimitExceeded .nfaConstruction usizeMax limit)
    reserveFrames frameSize stack.length (branches.length * 2 + 1) limit
    emit frameSize capacity limit fuel pattern
      (.text "(?:" :: pushBranches branches (.text ")" :: stack))
  | fuel + 1, pattern, .expression (.star e) :: stack => do
    reserveFrames frameSize stack.length 4 limit
    emit frameSize capacity limit fuel pattern
      (.text "(?:" :: .expression e :: .text ")" :: .text "*" :: stack)

mutual

/-- The frames that an expression takes in all, its own included. -/
def frames : RegularExpression → ℕ
  | .empty => 1
  | .epsilon => 1
  | .atom .. => 1
  | .concat parts => framesOf parts + 2 * parts.length + 1
  | .union branches => framesOf branches + branches.length + 2
  | .star e => frames e + 4

/-- The frames of the expressions, one after the other. -/
def framesOf : List RegularExpression → ℕ
  | [] => 0
  | e :: es => frames e + framesOf es

end

/-- `pattern_with_limit`. -/
def patternWithLimit (frameSize : ℕ) (capacity : ℕ → ℕ) (e : RegularExpression) (limit : ℕ) :
    Except CompileError (Option String) :=
  if e = .empty then pure none
  else do
    let pattern ← emit frameSize capacity limit e.frames "" [.expression e]
    pure (some pattern)

/-- The text of an expression, without a limit. -/
def pattern (frameSize : ℕ) (capacity : ℕ → ℕ) (e : RegularExpression) :
    Except CompileError (Option String) :=
  patternWithLimit frameSize capacity e usizeMax

/-! ### The text -/

mutual

/-- The text of an expression, by recursion. -/
def render : RegularExpression → String
  | .empty => ""
  | .epsilon => ""
  | .atom forward _ => forward
  | .concat parts => String.join ((renders parts).map fun text => "(?:" ++ text ++ ")")
  | .union branches => "(?:" ++ "|".intercalate (renders branches) ++ ")"
  | .star e => "(?:" ++ render e ++ ")*"

/-- The texts of the expressions. -/
def renders : List RegularExpression → List String
  | [] => []
  | e :: es => render e :: renders es

end

theorem renders_eq_map (es : List RegularExpression) : renders es = es.map render := by
  induction es with
  | nil => rfl
  | cons e es ih => rw [renders, ih, List.map_cons]

theorem framesOf_eq_sum (es : List RegularExpression) : framesOf es = (es.map frames).sum := by
  induction es with
  | nil => rfl
  | cons e es ih => rw [framesOf, ih, List.map_cons, List.sum_cons]

namespace Frame

/-- What a frame adds to the text. -/
def render : Frame → String
  | .expression e => e.render
  | .text s => s

/-- The frames that are popped for a frame. -/
def weight : Frame → ℕ
  | .expression e => e.frames
  | .text _ => 1

/-- Only the expressions among the frames have to be proper. -/
def Proper (atoms : String → Option String → Prop) : Frame → Prop
  | .expression e => RegularExpression.Proper atoms e
  | .text _ => True

theorem weight_pos (frame : Frame) : 0 < frame.weight := by
  cases frame with
  | expression e => cases e <;> simp [weight, frames]
  | text => exact Nat.one_pos

theorem length_le_weight (stack : List Frame) : stack.length ≤ (stack.map weight).sum := by
  induction stack with
  | nil => rfl
  | cons frame stack ih =>
    have hpos := frame.weight_pos
    simp only [List.length_cons, List.map_cons, List.sum_cons]
    omega

end Frame

/-- What the stack stands for, whatever it is read as. -/
theorem render_pushParts (parts : List RegularExpression) (stack : List Frame) :
    String.join ((pushParts parts stack).map Frame.render) =
      (RegularExpression.concat parts).render ++ String.join (stack.map Frame.render) := by
  rw [RegularExpression.render, renders_eq_map]
  induction parts with
  | nil => simp [pushParts]
  | cons part parts ih =>
    have hrest := ih
    simp only [pushParts, List.foldr_cons, List.map_cons, String.join_cons, Frame.render] at hrest ⊢
    rw [hrest]
    simp only [String.append_assoc]

theorem weight_pushParts (parts : List RegularExpression) (stack : List Frame) :
    ((pushParts parts stack).map Frame.weight).sum + 1 =
      (RegularExpression.concat parts).frames + (stack.map Frame.weight).sum := by
  rw [frames, framesOf_eq_sum]
  induction parts with
  | nil => simp [pushParts, Nat.add_comm]
  | cons part parts ih =>
    have hrest := ih
    simp only [pushParts, List.foldr_cons, List.map_cons, List.sum_cons, Frame.weight,
      List.length_cons] at hrest ⊢
    omega

theorem intercalate_cons_eq_join (separator text : String) (texts : List String) :
    separator.intercalate (text :: texts) =
      text ++ String.join (texts.map fun text => separator ++ text) := by
  induction texts generalizing text with
  | nil => simp
  | cons next texts ih =>
    rw [String.intercalate_cons_cons, ih, List.map_cons, String.join_cons]
    simp only [String.append_assoc]

/-- Behind the first branch every branch has a bar before it. -/
theorem pushBranches_cons (branch : RegularExpression) (branches : List RegularExpression)
    (stack : List Frame) :
    pushBranches (branch :: branches) stack =
      .expression branch :: branches.foldr
        (fun branch stack => .text "|" :: .expression branch :: stack) stack := by
  have hrest : ∀ k ≠ 0, (branches.zipIdx k).foldr (fun entry stack =>
      if entry.2 ≠ 0 then Frame.text "|" :: .expression entry.1 :: stack
      else .expression entry.1 :: stack) stack =
        branches.foldr (fun branch stack => .text "|" :: .expression branch :: stack) stack := by
    induction branches with
    | nil => exact fun _ _ => rfl
    | cons next branches ih =>
      intro k hk
      rw [List.zipIdx_cons, List.foldr_cons, List.foldr_cons, ih (k + 1) k.succ_ne_zero, if_pos hk]
  rw [pushBranches, List.zipIdx_cons, List.foldr_cons, hrest 1 one_ne_zero, if_neg (by simp)]

theorem render_pushBranches {branches : List RegularExpression} (hne : branches ≠ [])
    (stack : List Frame) :
    String.join ((pushBranches branches stack).map Frame.render) =
      "|".intercalate (branches.map render) ++ String.join (stack.map Frame.render) := by
  obtain ⟨branch, branches, rfl⟩ := List.exists_cons_of_ne_nil hne
  rw [pushBranches_cons, List.map_cons, String.join_cons, List.map_cons, intercalate_cons_eq_join,
    String.append_assoc]
  refine congrArg (branch.render ++ ·) ?_
  induction branches with
  | nil => simp
  | cons next branches ih =>
    simp only [List.foldr_cons, List.map_cons, String.join_cons, Frame.render,
      ih (List.cons_ne_nil _ _), String.append_assoc]

theorem weight_pushBranches {branches : List RegularExpression} (hne : branches ≠ [])
    (stack : List Frame) :
    ((pushBranches branches stack).map Frame.weight).sum + 3 =
      (RegularExpression.union branches).frames + (stack.map Frame.weight).sum := by
  obtain ⟨branch, branches, rfl⟩ := List.exists_cons_of_ne_nil hne
  rw [pushBranches_cons, frames, framesOf_eq_sum]
  have hrest : ((branches.foldr (fun branch stack => Frame.text "|" :: .expression branch :: stack)
      stack).map Frame.weight).sum =
      (branches.map frames).sum + branches.length + (stack.map Frame.weight).sum := by
    clear hne
    induction branches with
    | nil => simp
    | cons next branches ih =>
      simp only [List.foldr_cons, List.map_cons, List.sum_cons, Frame.weight, ih, List.length_cons]
      omega
  simp only [List.map_cons, List.sum_cons, Frame.weight, hrest, List.length_cons]
  omega

/-! ### The loop emits the text -/

variable {frameSize limit : ℕ} {capacity : ℕ → ℕ} {atoms : String → Option String → Prop}

/-- The stack and the text that it leads to stay within the limit and the address space. -/
structure Fits (frameSize limit : ℕ) (pattern : String) (stack : List Frame) : Prop where
  frames : (stack.map Frame.weight).sum ≤ usizeMax
  bytes : (stack.map Frame.weight).sum * frameSize ≤ limit
  text : (pattern ++ String.join (stack.map Frame.render)).utf8ByteSize ≤ limit

/-- The error is a limit that is really exceeded. -/
def Overflows (frameSize limit : ℕ) (pattern : String) (stack : List Frame)
    (error : CompileError) : Prop :=
  error.IsLimit ∧ ¬ Fits frameSize limit pattern stack

/-- The error is a limit, and a real one if no capacity goes beyond it. -/
def Exceeded (frameSize : ℕ) (capacity : ℕ → ℕ) (limit : ℕ) (pattern : String) (stack : List Frame)
    (error : CompileError) : Prop :=
  error.IsLimit ∧ ((∀ n ≤ limit, capacity n ≤ limit) → ¬ Fits frameSize limit pattern stack)

theorem Exceeded.mono {pattern pattern' : String} {stack stack' : List Frame}
    {error : CompileError} (h : Exceeded frameSize capacity limit pattern stack error)
    (hweight : (stack.map Frame.weight).sum ≤ (stack'.map Frame.weight).sum)
    (htext : pattern ++ String.join (stack.map Frame.render) =
      pattern' ++ String.join (stack'.map Frame.render)) :
    Exceeded frameSize capacity limit pattern' stack' error :=
  ⟨h.1, fun hcapacity hfits => h.2 hcapacity ⟨hweight.trans hfits.frames,
    (Nat.mul_le_mul_right _ hweight).trans hfits.bytes, htext ▸ hfits.text⟩⟩

theorem wp_appendPattern (hlimit : limit ≤ usizeMax)
    {pattern text : String} {rest : List Frame} {frame : Frame} (hframe : frame.render = text) :
    Result.wp (Exceeded frameSize capacity limit pattern (frame :: rest))
      (appendPattern capacity pattern text limit) fun pattern' => pattern' = pattern ++ text := by
  have hover : ∀ {stage : CompileStage} {observed : ℕ},
      ¬ pattern.utf8ByteSize + text.utf8ByteSize ≤ limit →
      Exceeded frameSize capacity limit pattern (frame :: rest)
        (.resourceLimitExceeded stage observed limit) := by
    intro stage observed hlt
    refine ⟨trivial, fun _ hfits => hlt ?_⟩
    have htext := hfits.text
    simp only [List.map_cons, String.join_cons, hframe, String.utf8ByteSize_append] at htext
    omega
  simp only [appendPattern, enforceCompileLimit, Result.wp_bind, Result.wp_require, Result.wp_pure]
  refine ⟨fun _ => ⟨fun hle => ⟨fun _ => trivial, fun hlt => ?_⟩, hover⟩, fun hlt => ?_⟩
  · exact ⟨trivial, fun hcapacity => absurd (hcapacity _ hle) hlt⟩
  · exact hover fun hle => hlt (hle.trans hlimit)

theorem wp_reserveFrames {pattern : String} {stack stack' : List Frame} {additional : ℕ}
    (hlimit : limit ≤ usizeMax)
    (h : stack.length + additional ≤ (stack'.map Frame.weight).sum) :
    Result.wp (Exceeded frameSize capacity limit pattern stack')
      (reserveFrames frameSize stack.length additional limit) fun _ => True := by
  have hover : ∀ {stage : CompileStage} {observed : ℕ},
      ¬ (stack.length + additional) * frameSize ≤ limit →
      Exceeded frameSize capacity limit pattern stack'
        (.resourceLimitExceeded stage observed limit) :=
    fun hlt => ⟨trivial, fun _ hfits => hlt ((Nat.mul_le_mul_right _ h).trans hfits.bytes)⟩
  simp only [reserveFrames, enforceCompileLimit, Result.wp_bind, Result.wp_require]
  refine ⟨fun _ => ⟨fun _ => ⟨fun _ => trivial, hover⟩, fun hlt => ?_⟩, fun hlt => ?_⟩
  · exact hover fun hle => hlt (hle.trans hlimit)
  · exact ⟨trivial, fun _ hfits => hlt (h.trans hfits.frames)⟩

theorem length_le_framesOf (es : List RegularExpression) : es.length ≤ framesOf es := by
  have h := Frame.length_le_weight (es.map Frame.expression)
  rw [List.length_map, List.map_map] at h
  rw [framesOf_eq_sum]
  exact h

theorem proper_pushParts {parts : List RegularExpression} {stack : List Frame}
    (hparts : ∀ e ∈ parts, Proper atoms e) (hstack : ∀ frame ∈ stack, frame.Proper atoms) :
    ∀ frame ∈ pushParts parts stack, frame.Proper atoms := by
  induction parts with
  | nil => exact hstack
  | cons part parts ih =>
    obtain ⟨hpart, hparts⟩ := List.forall_mem_cons.1 hparts
    simpa [pushParts, Frame.Proper, hpart] using ih hparts

theorem proper_pushBranches {branches : List RegularExpression} {stack : List Frame}
    (hbranches : ∀ e ∈ branches, Proper atoms e) (hstack : ∀ frame ∈ stack, frame.Proper atoms) :
    ∀ frame ∈ pushBranches branches stack, frame.Proper atoms := by
  cases branches with
  | nil => exact hstack
  | cons branch branches =>
    obtain ⟨hbranch, hrest⟩ := List.forall_mem_cons.1 hbranches
    rw [pushBranches_cons]
    refine List.forall_mem_cons.2 ⟨hbranch, ?_⟩
    clear hbranch hbranches
    induction branches with
    | nil => exact hstack
    | cons next branches ih =>
      obtain ⟨hnext, hrest⟩ := List.forall_mem_cons.1 hrest
      simpa [Frame.Proper, hnext] using ih hrest

/-- **The loop emits what its stack stands for.** -/
theorem wp_emit_exceeded (hlimit : limit ≤ usizeMax) :
    ∀ {fuel : ℕ} {pattern : String} {stack : List Frame},
      (∀ frame ∈ stack, frame.Proper atoms) → (stack.map Frame.weight).sum ≤ fuel →
      Result.wp (Exceeded frameSize capacity limit pattern stack)
        (emit frameSize capacity limit fuel pattern stack)
        fun text => text = pattern ++ String.join (stack.map Frame.render) := by
  intro fuel
  induction fuel with
  | zero =>
    intro pattern stack _ hfuel
    cases stack with
    | nil => simp [emit]
    | cons frame stack =>
      have hpos := frame.weight_pos
      simp only [List.map_cons, List.sum_cons] at hfuel
      omega
  | succ fuel ih =>
    intro pattern stack hproper hfuel
    cases stack with
    | nil => simp [emit]
    | cons frame stack =>
      obtain ⟨hframe, hstack⟩ := List.forall_mem_cons.1 hproper
      rw [List.map_cons, List.sum_cons] at hfuel
      -- A step that leaves frames of a smaller weight, and the text as it was.
      have hstep : ∀ {pattern' : String} {stack' : List Frame},
          (∀ frame ∈ stack', frame.Proper atoms) →
          (stack'.map Frame.weight).sum + 1 ≤ ((frame :: stack).map Frame.weight).sum →
          pattern' ++ String.join (stack'.map Frame.render) =
            pattern ++ String.join ((frame :: stack).map Frame.render) →
          Result.wp (Exceeded frameSize capacity limit pattern (frame :: stack))
            (emit frameSize capacity limit fuel pattern' stack')
            fun text => text = pattern ++ String.join ((frame :: stack).map Frame.render) := by
        intro pattern' stack' hproper' hweight htext
        rw [List.map_cons, List.sum_cons] at hweight
        refine Result.wp_mono (Result.wp_weaken (ih hproper' (by omega)) fun _ h => ?_)
          fun _ h => ?_
        · exact h.mono (by rw [List.map_cons, List.sum_cons]; omega) htext
        · rw [h, htext]
      have happend : ∀ {text : String}, frame.render = text →
          Result.wp (Exceeded frameSize capacity limit pattern (frame :: stack))
            (appendPattern capacity pattern text limit >>= fun pattern' =>
              emit frameSize capacity limit fuel pattern' stack)
            fun text => text = pattern ++ String.join ((frame :: stack).map Frame.render) := by
        intro text htext
        refine Result.wp_bind.2 (Result.wp_mono (wp_appendPattern hlimit htext) ?_)
        rintro _ rfl
        refine hstep hstack ?_ ?_
        · have hpos := frame.weight_pos
          simp only [List.map_cons, List.sum_cons]
          omega
        · rw [List.map_cons, String.join_cons, htext, String.append_assoc]
      have hreserve : ∀ {additional : ℕ}, additional ≤ frame.weight →
          Result.wp (Exceeded frameSize capacity limit pattern (frame :: stack))
            (reserveFrames frameSize stack.length additional limit) fun _ => True := by
        intro additional h
        refine wp_reserveFrames hlimit ?_
        have hlength := Frame.length_le_weight stack
        simp only [List.map_cons, List.sum_cons]
        omega
      have hcount : ∀ {count : ℕ}, count ≤ frame.weight → ¬ count ≤ usizeMax →
          Exceeded frameSize capacity limit pattern (frame :: stack)
            (.resourceLimitExceeded .nfaConstruction usizeMax limit) := by
        intro count h hlt
        refine ⟨trivial, fun _ hfits => hlt ?_⟩
        have hframes := hfits.frames
        rw [List.map_cons, List.sum_cons] at hframes
        omega
      cases frame with
      | text text => exact happend rfl
      | expression e =>
        cases e with
        | empty => exact absurd hframe not_proper_empty
        | epsilon =>
          refine hstep hstack ?_ ?_
          · simp [Frame.weight, frames, Nat.add_comm]
          · simp [Frame.render, RegularExpression.render]
        | atom forward reverse => exact happend rfl
        | concat parts =>
          have hparts : ∀ e ∈ parts, Proper atoms e := by
            cases hframe with
            | concat h => exact h
          have hlength := length_le_framesOf parts
          have hweight : parts.length * 3 ≤ (Frame.expression (.concat parts)).weight := by
            simp only [Frame.weight, frames]
            omega
          simp only [emit, Result.wp_bind, Result.wp_require]
          refine ⟨fun _ => Result.wp_mono (hreserve hweight) fun _ _ => ?_, hcount hweight⟩
          refine hstep (proper_pushParts hparts hstack) ?_ ?_
          · exact le_of_eq (weight_pushParts parts stack)
          · rw [render_pushParts, List.map_cons, String.join_cons, Frame.render]
        | union branches =>
          obtain ⟨hne, hbranches⟩ : branches ≠ [] ∧ ∀ e ∈ branches, Proper atoms e := by
            cases hframe with
            | union hne h => exact ⟨hne, h⟩
          have hlength := length_le_framesOf branches
          have hweight : branches.length * 2 + 1 ≤ (Frame.expression (.union branches)).weight := by
            simp only [Frame.weight, frames]
            omega
          have hclose : ∀ frame ∈ Frame.text ")" :: stack, frame.Proper atoms :=
            List.forall_mem_cons.2 ⟨trivial, hstack⟩
          simp only [emit, Result.wp_bind, Result.wp_require]
          refine ⟨fun _ => Result.wp_mono (hreserve hweight) fun _ _ => ?_, hcount hweight⟩
          refine hstep
            (List.forall_mem_cons.2 ⟨trivial, proper_pushBranches hbranches hclose⟩) ?_ ?_
          · have hsum := weight_pushBranches hne (.text ")" :: stack)
            simp only [List.map_cons, List.sum_cons, Frame.weight] at hsum ⊢
            omega
          · simp only [List.map_cons, String.join_cons, Frame.render, render_pushBranches hne,
              RegularExpression.render, renders_eq_map, String.append_assoc]
        | star e =>
          have he : Proper atoms e := by
            cases hframe with
            | star h => exact h
          have hweight : 4 ≤ (Frame.expression (.star e)).weight := by
            simp [Frame.weight, frames]
          simp only [emit, Result.wp_bind]
          refine Result.wp_mono (hreserve hweight) fun _ _ => hstep ?_ ?_ ?_
          · simpa [Frame.Proper, he] using hstack
          · simp only [List.map_cons, List.sum_cons, Frame.weight, frames]
            omega
          · simp only [List.map_cons, String.join_cons, Frame.render, RegularExpression.render,
              String.append_assoc]
            rfl

/-- Without capacities beyond it, the limit is really exceeded. -/
theorem wp_emit (hlimit : limit ≤ usizeMax) (hcapacity : ∀ n ≤ limit, capacity n ≤ limit)
    {fuel : ℕ} {pattern : String} {stack : List Frame}
    (hproper : ∀ frame ∈ stack, frame.Proper atoms) (hfuel : (stack.map Frame.weight).sum ≤ fuel) :
    Result.wp (Overflows frameSize limit pattern stack)
      (emit frameSize capacity limit fuel pattern stack)
      fun text => text = pattern ++ String.join (stack.map Frame.render) :=
  Result.wp_weaken (wp_emit_exceeded hlimit hproper hfuel) fun _ h => ⟨h.1, h.2 hcapacity⟩

/-! ### The text denotes the expression -/

variable {α : Type*} {S : RegexSyntax α} {R : String → Language α}

/-- **The text of an expression is a regular expression for its language.** -/
theorem regexDenotes_render {e : RegularExpression}
    (h : Proper (fun forward _ => RegexDenotes S forward.toList (R forward)) e) :
    RegexDenotes S e.render.toList (e.language fun forward _ => R forward) := by
  induction h with
  | epsilon => exact .nil
  | atom h => exact h
  | @concat parts _ ih =>
    rw [language, languages_eq_map, render, renders_eq_map]
    have htext := RegexDenotes.concatenation ih
    simpa [String.toList_join, List.flatMap_map, Function.comp_def] using htext
  | @union branches hne _ ih =>
    rw [language, languages_eq_map, render, renders_eq_map]
    have htext := (RegexDenotes.alternation ih hne).group
    simpa [String.toList_intercalate, Function.comp_def] using htext
  | star _ ih =>
    rw [language, render]
    have htext := ih.star
    simpa using htext

/-- **Rendering preserves the meaning.**  What `pattern` returns for a built expression: nothing for
`Empty` alone, and otherwise a text that is read as the language of the expression and as no other;
it fails only where a limit is exceeded that the machine's address space sets. -/
theorem pattern_exact (hcapacity : ∀ n, capacity n ≤ usizeMax) {e : RegularExpression}
    (he : Built (fun forward _ => RegexDenotes S forward.toList (R forward)) e) :
    (pattern frameSize capacity e = .ok none ↔ e = .empty) ∧
    (∀ text, pattern frameSize capacity e = .ok (some text) →
      ∀ L, RegexDenotes S text.toList L ↔ L = e.language fun forward _ => R forward) ∧
    ∀ error, pattern frameSize capacity e = .error error →
      Overflows frameSize usizeMax "" [.expression e] error := by
  by_cases hempty : e = .empty
  · have hpattern : pattern frameSize capacity e = .ok none := by
      rw [pattern, patternWithLimit, if_pos hempty]
      rfl
    rw [hpattern]
    exact ⟨⟨fun _ => hempty, fun _ => rfl⟩, fun _ h => (by cases h), fun _ h => (by cases h)⟩
  · have hproper := he.proper.resolve_left hempty
    have hstack : ∀ frame ∈ [Frame.expression e],
        frame.Proper fun forward _ => RegexDenotes S forward.toList (R forward) := by
      simpa [Frame.Proper] using hproper
    have hemit : Result.wp (Overflows frameSize usizeMax "" [.expression e])
        (emit frameSize capacity usizeMax e.frames "" [.expression e])
        fun text => text = "" ++ String.join ([Frame.expression e].map Frame.render) :=
      wp_emit le_rfl (fun n _ => hcapacity n) hstack (by simp [Frame.weight])
    have hwp : Result.wp (Overflows frameSize usizeMax "" [.expression e])
        (pattern frameSize capacity e) fun result => result = some e.render := by
      rw [pattern, patternWithLimit, if_neg hempty]
      refine Result.wp_bind.2 (Result.wp_mono hemit ?_)
      rintro _ rfl
      simp [Frame.render]
    have hdenotes := regexDenotes_render hproper
    refine ⟨⟨fun h => ?_, fun h => absurd h hempty⟩, fun text h L => ?_, fun error h => ?_⟩
    · have hnone := Result.wp_ok hwp h
      cases hnone
    · have htext := Result.wp_ok hwp h
      obtain rfl := Option.some.inj htext
      exact ⟨fun hL => hL.unique hdenotes, fun hL => hL ▸ hdenotes⟩
    · exact Result.wp_error hwp h

/-- An atom with an alternation at its top, next to a star. -/
theorem pattern_exact_alternation :
    pattern 24 (fun n => min n usizeMax)
      (OcEarley.concat [OcEarley.union [.atom "a|b" none, OcEarley.concat []],
        OcEarley.star (.atom "b" none)]) = .ok (some "(?:(?:|a|b))(?:(?:b)*)") ∧
    ∀ L, RegexDenotes .plain "(?:(?:|a|b))(?:(?:b)*)".toList L ↔
      L = language (fun forward _ => if forward = "b" then {['b']} else {['a']} + {['b']})
        (OcEarley.concat [OcEarley.union [.atom "a|b" none, OcEarley.concat []],
          OcEarley.star (.atom "b" none)]) := by
  have ha : RegexDenotes .plain ['a'] {['a']} := regexDenotes_char (by decide)
  have hb : RegexDenotes .plain ['b'] {['b']} := regexDenotes_char (by decide)
  have hcapacity : ∀ n, min n usizeMax ≤ usizeMax := fun n => Nat.min_le_right n _
  have hrun : pattern 24 (fun n => min n usizeMax)
      (OcEarley.concat [OcEarley.union [.atom "a|b" none, OcEarley.concat []],
        OcEarley.star (.atom "b" none)]) = .ok (some "(?:(?:|a|b))(?:(?:b)*)") := by
    decide +kernel
  refine ⟨hrun, (pattern_exact hcapacity (.concat ?_)).2.1 _ hrun⟩
  simp only [List.forall_mem_cons, List.not_mem_nil, false_implies, implies_true, and_true]
  refine ⟨.union ?_, .star (.atom hb)⟩
  simp only [List.forall_mem_cons, List.not_mem_nil, false_implies, implies_true, and_true]
  exact ⟨.atom (Reads.bar ha rfl rfl hb), .concat (by simp)⟩

end RegularExpression

end OcEarley
