import ConstraintSearch.Text.CharacterClass

/-!
# Clusters of characters

What a reader takes for one character may be several: a letter with the marks on it, a stack of
consonants, a flag, or a picture that is made of pictures. `clusters` cuts a text into such
clusters, the extended grapheme clusters of Unicode. A text is read from the front, and `isJoined`
says whether a character belongs to the cluster before it.

`flatten_clusters` says that nothing is lost, `ne_nil_of_mem_clusters` that no cluster is empty.
-/

namespace ConstraintSearch.Text

/-- Whether a picture behind `before` (closest first) and a joiner belongs to the cluster: marks may
stand between the joiner and the picture that it joins to. -/
def awaitsPicture (before : List Char) : Bool :=
  (before.dropWhile isAttached).head?.any isPictograph

/-- Whether a consonant behind `before` (closest first) belongs to the cluster: a conjoining sign
stands between them, possibly among other marks. -/
def awaitsConsonant (before : List Char) : Bool :=
  let isBetween (c : Char) : Bool := c = joiner || (isAttached c && c ≠ nonJoiner)
  (before.takeWhile isBetween).any isConjoining
    && (before.dropWhile isBetween).head?.any isConsonant

/-- Whether `a` and `b` are parts of one syllable. -/
def isSyllable (a b : Char) : Bool :=
  match Jamo.of? a, Jamo.of? b with
  | some x, some y => x.fits y
  | _, _ => false

/-- Whether `c` belongs to the cluster of the character `last`, which stands behind `before`
(closest first) in the cluster. A control character is a cluster of its own, but the two characters
that end a line together are one. -/
def isJoined (before : List Char) (last c : Char) : Bool :=
  if isControl last || isControl c then last = '\r' && c = '\n'
  else isAttached c || c = joiner || isSpacingMark c || isPrepended last || isSyllable last c
    || (isPictograph c && last = joiner && awaitsPicture before)
    || (isConsonant c && awaitsConsonant (last :: before))
    || (isFlagLetter c && isFlagLetter last && !before.head?.any isFlagLetter)

/-- The clusters from the one that begins with the characters of `before` (closest first) and `last`
to the end of the text. -/
def clustersAfter (before : List Char) (last : Char) : List Char → List (List Char)
  | [] => [(last :: before).reverse]
  | c :: cs =>
      if isJoined before last c then clustersAfter (last :: before) c cs
      else (last :: before).reverse :: clustersAfter [] c cs

/-- A text as a list of clusters. -/
def clusters : List Char → List (List Char)
  | [] => []
  | c :: cs => clustersAfter [] c cs

theorem flatten_clustersAfter (before : List Char) (last : Char) (cs : List Char) :
    (clustersAfter before last cs).flatten = (last :: before).reverse ++ cs := by
  induction cs generalizing before last with
  | nil => simp [clustersAfter]
  | cons c cs ih => by_cases h : isJoined before last c = true <;> simp [clustersAfter, h, ih]

/-- The characters of the clusters are those of the text. -/
theorem flatten_clusters (cs : List Char) : (clusters cs).flatten = cs := by
  cases cs with
  | nil => rfl
  | cons c cs => simp [clusters, flatten_clustersAfter]

theorem ne_nil_of_mem_clustersAfter {before : List Char} {last : Char} {cs cluster : List Char}
    (h : cluster ∈ clustersAfter before last cs) : cluster ≠ [] := by
  induction cs generalizing before last with
  | nil =>
    simp only [clustersAfter, List.mem_singleton] at h
    simp [h]
  | cons c cs ih =>
    unfold clustersAfter at h
    split at h
    · exact ih h
    · rcases List.mem_cons.1 h with rfl | h
      · simp
      · exact ih h

theorem ne_nil_of_mem_clusters {cs cluster : List Char} (h : cluster ∈ clusters cs) :
    cluster ≠ [] := by
  cases cs with
  | nil => simp [clusters] at h
  | cons c cs => exact ne_nil_of_mem_clustersAfter h

end ConstraintSearch.Text
