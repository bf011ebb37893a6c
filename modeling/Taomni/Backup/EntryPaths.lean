import Mathlib.Data.List.Nodup
import Taomni.Backup.RestorePaths
import Taomni.Common.Lines
import Taomni.Common.Quoting

/-!
# Names of devices

Windows opens a device for some names, in every directory, whatever their extension and whatever blanks are
before it. The check of a backup's names knows most of them.

Reference: `checked_path` of `src-tauri/src/backup/restore.rs`.
-/

namespace Taomni.Backup

open List
open Bool (and_eq_true eq_false_iff or_eq_true)

/-- A name up to its first dot, in upper case. -/
def partBase (part : Text) : Text := ((part.splitOn '.').headD []).map Char.toUpper

def withoutBlanks (base : Text) : Text := base.rdropWhile (· = ' ')

/-- A port by one of these digits. -/
def isPort (digits base : Text) : Bool :=
  ["COM", "LPT"].any fun port => digits.any fun digit => base == port.toList ++ [digit]

/-- The devices: three of the digits are the superscript ones. -/
def isDevice (base : Text) : Bool :=
  ["CON", "PRN", "AUX", "NUL", "CONIN$", "CONOUT$"].any (·.toList == base) || isPort "0123456789¹²³".toList base

def isReservedDevice (part : Text) : Bool := isDevice (withoutBlanks (partBase part))

/-- The devices that `checked_path` knows. -/
def isCheckedDevice (base : Text) : Bool :=
  ["CON", "PRN", "AUX", "NUL"].any (·.toList == base) ||
    (base.length == 4 && ("COM".toList.isPrefixOf base || "LPT".toList.isPrefixOf base) && (base.getD 3 ' ').isDigit)

theorem reservedPart_eq (part : Text) : reservedPart part = isCheckedDevice (partBase part) := rfl

/-- The names that it misses: blanks behind a device, the two of the console, and the superscript digits. -/
def missedPart (part : Text) : Bool :=
  (withoutBlanks (partBase part) != partBase part && isCheckedDevice (withoutBlanks (partBase part))) ||
    ["CONIN$", "CONOUT$"].any (·.toList == withoutBlanks (partBase part)) ||
    isPort "¹²³".toList (withoutBlanks (partBase part))

/-! ## Ports -/

theorem isPort_iff {digits base : Text} :
    isPort digits base = true ↔ ∃ digit ∈ digits, base = "COM".toList ++ [digit] ∨ base = "LPT".toList ++ [digit] := by
  simp only [isPort, any_cons, any_nil, Bool.or_false, or_eq_true, any_eq_true, beq_iff_eq,
    ← exists_or, ← and_or_left]

theorem isPort_append {front back base : Text} :
    isPort (front ++ back) base = (isPort front base || isPort back base) := by
  rw [Bool.eq_iff_iff, or_eq_true]
  simp only [isPort_iff, mem_append, or_and_right, exists_or]

theorem isDigit_iff_mem (c : Char) : c.isDigit = true ↔ c ∈ "0123456789".toList := by
  constructor
  · intro h
    obtain ⟨hlow, hhigh⟩ : 48 ≤ c.toNat ∧ c.toNat ≤ 57 := by
      simp only [Char.isDigit, ge_iff_le, and_eq_true, decide_eq_true_eq, UInt32.le_iff_toNat_le] at h
      exact h
    obtain ⟨n, hn⟩ := Nat.exists_eq_add_of_le hlow
    have hdigits : ∀ n < 10, ("0123456789".toList.contains (Char.ofNat (48 + n))) = true := by decide
    have hmem := hdigits n (by omega)
    rw [← hn, Char.ofNat_toNat] at hmem
    exact contains_iff_mem.mp hmem
  · intro h
    have hall : "0123456789".toList.all Char.isDigit = true := by decide
    exact all_eq_true.mp hall c h

theorem prefix_four {front base : Text} (hfront : front.length = 3) (hlength : base.length = 4)
    (h : front.isPrefixOf base = true) : base = front ++ [base.getD 3 ' '] := by
  obtain ⟨rest, rfl⟩ := isPrefixOf_iff_prefix.mp h
  rw [length_append, hfront] at hlength
  obtain ⟨c, rfl⟩ := List.length_eq_one_iff.mp (Nat.add_left_cancel hlength)
  rw [← hfront, getD_eq_getElem?_getD, getElem?_concat_length]
  rfl

/-- The three tests of a port are one. -/
theorem isPort_checked (base : Text) : isPort "0123456789".toList base =
    (base.length == 4 && ("COM".toList.isPrefixOf base || "LPT".toList.isPrefixOf base) &&
      (base.getD 3 ' ').isDigit) := by
  rw [Bool.eq_iff_iff, isPort_iff]
  simp only [and_eq_true, or_eq_true, beq_iff_eq, isDigit_iff_mem]
  constructor
  · rintro ⟨digit, hdigit, rfl | rfl⟩
    · exact ⟨⟨rfl, .inl rfl⟩, hdigit⟩
    · exact ⟨⟨rfl, .inr rfl⟩, hdigit⟩
  · rintro ⟨⟨hlength, hport⟩, hdigit⟩
    exact ⟨_, hdigit, hport.imp (prefix_four rfl hlength) (prefix_four rfl hlength)⟩

theorem isCheckedDevice_eq (base : Text) : isCheckedDevice base =
    (["CON", "PRN", "AUX", "NUL"].any (·.toList == base) || isPort "0123456789".toList base) := by
  rw [isPort_checked]
  rfl

/-! ## What the check misses -/

theorem isDevice_eq (base : Text) : isDevice base =
    (isCheckedDevice base || ["CONIN$", "CONOUT$"].any (·.toList == base) || isPort "¹²³".toList base) := by
  have hports : isPort "0123456789¹²³".toList base = (isPort "0123456789".toList base || isPort "¹²³".toList base) :=
    @isPort_append "0123456789".toList "¹²³".toList base
  rw [isDevice, isCheckedDevice_eq, hports]
  simp only [any_cons, any_nil, Bool.or_false]
  ac_rfl

/-- No device that is known ends in a blank. -/
theorem withoutBlanks_of_checked {base : Text} (h : isCheckedDevice base = true) : withoutBlanks base = base := by
  rw [isCheckedDevice_eq, or_eq_true, any_eq_true] at h
  rcases h with ⟨name, hname, heq⟩ | hport
  · rw [← beq_iff_eq.mp heq]
    have hall : ["CON", "PRN", "AUX", "NUL"].all (fun name => withoutBlanks name.toList == name.toList) = true := by
      decide
    exact beq_iff_eq.mp (all_eq_true.mp hall name hname)
  · obtain ⟨digit, hdigit, hbase⟩ := isPort_iff.mp hport
    have hblank : ¬decide (digit = ' ') = true := by
      rw [decide_eq_true_eq]
      rintro rfl
      exact absurd hdigit (by decide)
    rcases hbase with rfl | rfl <;> exact rdropWhile_concat_neg _ _ _ hblank

/-- A name is a device exactly if the check finds it or misses it. -/
theorem isReservedDevice_eq (part : Text) : isReservedDevice part = (reservedPart part || missedPart part) := by
  rw [isReservedDevice, isDevice_eq, reservedPart_eq, missedPart]
  generalize partBase part = base
  by_cases hblank : withoutBlanks base = base
  · rw [hblank, bne_self_eq_false, Bool.false_and, Bool.false_or, Bool.or_assoc]
  · have hnot : isCheckedDevice base = false := by
      rw [eq_false_iff]
      exact fun hchecked => hblank (withoutBlanks_of_checked hchecked)
    rw [hnot, bne_iff_ne.mpr hblank, Bool.true_and, Bool.false_or]

/-!
# Two entries of a backup

The files that two entries name are apart, but for the nameless database of the mail cache and the one that is
called after it: the extension of the first is a part of its name.

Reference: `destination` and `apply_pending_restore` of `src-tauri/src/backup/restore.rs`.
-/

/-! ## What entries should keep to -/

/-- A component of a path that leads nowhere else: no parent, no root, no drive, no stream and no device. -/
structure Ordinary (c : Text) : Prop where
  ne_nil : c ≠ []
  ne_dot : c ≠ ".".toList
  ne_dots : c ≠ "..".toList
  noSlash : '/' ∉ c
  noBackslash : '\\' ∉ c
  noColon : ':' ∉ c
  noDevice : isReservedDevice c = false

instance (c : Text) : Decidable (Ordinary c) :=
  decidable_of_iff (c ≠ [] ∧ c ≠ ".".toList ∧ c ≠ "..".toList ∧ '/' ∉ c ∧ '\\' ∉ c ∧ ':' ∉ c ∧
      isReservedDevice c = false)
    ⟨fun ⟨hnil, hdot, hdots, hslash, hbackslash, hcolon, hdevice⟩ =>
      ⟨hnil, hdot, hdots, hslash, hbackslash, hcolon, hdevice⟩,
    fun h => ⟨h.ne_nil, h.ne_dot, h.ne_dots, h.noSlash, h.noBackslash, h.noColon, h.noDevice⟩⟩

/-- The files of the configuration directory. -/
def configFiles : List Text := configTargets.map fun target => target.2.toList

/-- A path below the data directory, or one of the files of the configuration directory. -/
def Contained (appData : Path) (configDir : Option Path) (path : Path) : Prop :=
  (∃ rest, rest ≠ [] ∧ (∀ c ∈ rest, Ordinary c) ∧ path = appData ++ rest) ∨
    ∃ dir file, configDir = some dir ∧ file ∈ configFiles ∧ Ordinary file ∧ path = dir ++ ["taomni".toList, file]

/-- Two entries that a restore may write together. -/
structure SafeEntries (appData : Path) (configDir : Option Path) (first second : Text) (dst dst' : Path) : Prop where
  distinct : (journaledPaths first dst ++ journaledPaths second dst').Nodup
  first : Contained appData configDir dst
  second : Contained appData configDir dst'

/-- The nameless database, and the one that is called after it. -/
def Twins (first second : Text) : Prop :=
  first = "mail-cache/.db".toList ∧ second = "mail-cache/.db.db".toList

/-- No part of a name is a device that the check misses. -/
def Checked (name : Text) : Prop := ∀ part ∈ name.splitOn '/', missedPart part = false

/-! ## The kinds of entries -/

/-- A database of the mail cache. -/
def databaseName (stem : Text) : Text := "mail-cache/".toList ++ (stem ++ ".db".toList)

/-- What `destination` accepts, and where it puts it. -/
inductive Entry (appData : Path) (configDir : Option Path) : Text → Path → Prop where
  | fixed {target : String × List String} (mem : target ∈ fixedTargets) :
    Entry appData configDir target.1.toList (appData ++ target.2.map String.toList)
  | config {target : String × String} {dir : Path} (mem : target ∈ configTargets) (hdir : configDir = some dir) :
    Entry appData configDir target.1.toList (dir ++ ["taomni".toList, target.2.toList])
  | database {stem : Text} (noSlash : '/' ∉ stem) :
    Entry appData configDir (databaseName stem) (appData ++ ["mail-cache".toList, stem ++ ".db".toList])
  | object {name second third fourth last : Text}
    (split : name.splitOn '/' = ["mail-cache".toList, second, third, fourth, last])
    (suffix : ".eml.gz".toList <:+ last ∨ ".bin".toList <:+ last) :
    Entry appData configDir name (appData ++ name.splitOn '/')

theorem checkedPath_of_destination {appData dst : Path} {configDir : Option Path} {name : Text}
    (h : destination appData configDir name = .ok dst) : checkedPath name = .ok () := by
  unfold destination at h
  obtain ⟨_, hcheck, -⟩ := exists_of_bind_eq_ok h
  exact hcheck

theorem splitOn_databaseName (stem : Text) :
    (databaseName stem).splitOn '/' = "mail-cache".toList :: (stem ++ ".db".toList).splitOn '/' := by
  have hroot : '/' ∉ "mail-cache".toList := by decide
  exact splitOn_append_cons_self_of_not_mem hroot (stem ++ ".db".toList)

theorem splitOn_databaseFile {stem : Text} (h : '/' ∉ stem) :
    (stem ++ ".db".toList).splitOn '/' = [stem ++ ".db".toList] := by
  refine splitOn_eq_singleton ?_
  rw [mem_append]
  exact not_or.mpr ⟨h, by decide⟩

theorem not_mem_of_length_splitOn {text : Text} {sep : Char} (h : (text.splitOn sep).length = 1) : sep ∉ text := by
  intro hmem
  obtain ⟨front, back, rfl⟩ := append_of_mem hmem
  have hfront := length_pos_iff.mpr (splitOn_ne_nil sep front)
  have hback := length_pos_iff.mpr (splitOn_ne_nil sep back)
  rw [splitOn_append_cons_self, length_append] at h
  omega

/-- A front that ends where no suffix has a letter like its last one is in the stem. -/
theorem databaseName_of_prefix {name : Text} (hstart : "mail-cache/".toList <+: name)
    (hsuffix : ".db".toList <:+ name) : ∃ stem, name = databaseName stem := by
  obtain ⟨front, rfl⟩ := hsuffix
  rcases prefix_append_cases hstart with ⟨stem, rfl⟩ | ⟨more, heq, hmore⟩
  · exact ⟨stem, append_assoc _ _ _⟩
  rcases eq_nil_or_concat' more with rfl | ⟨init, c, rfl⟩
  · rw [append_nil] at heq
    exact ⟨[], by rw [← heq]; rfl⟩
  · have hlast : '/' = c := by
      have hend : "mail-cache".toList ++ ['/'] = (front ++ init) ++ [c] := by
        rw [append_assoc, ← heq]
        rfl
      exact singleton_injective (append_inj_right' hend rfl)
    have hslash : '/' ∈ ".db".toList := hmore.subset (hlast ▸ mem_append_right _ mem_cons_self)
    exact absurd hslash (by decide)

theorem isMailDatabase_elim {name : Text} (h : isMailDatabase name = true) :
    ∃ stem, '/' ∉ stem ∧ name = databaseName stem := by
  unfold isMailDatabase at h
  rw [and_eq_true, and_eq_true] at h
  obtain ⟨⟨hstart, hsuffix⟩, hlength⟩ := h
  obtain ⟨stem, rfl⟩ :=
    databaseName_of_prefix (List.isPrefixOf_iff_prefix.mp hstart) (isSuffixOf_iff_suffix.mp hsuffix)
  rw [splitOn_databaseName, length_cons, beq_iff_eq] at hlength
  have hslash := not_mem_of_length_splitOn (Nat.succ.inj hlength)
  exact ⟨stem, fun hmem => hslash (mem_append_left _ hmem), rfl⟩

theorem entry_of_destination {appData dst : Path} {configDir : Option Path} {name : Text}
    (h : destination appData configDir name = .ok dst) : Entry appData configDir name dst := by
  unfold destination at h
  obtain ⟨-, -, h⟩ := exists_of_bind_eq_ok h
  split at h
  · next target file hfind =>
    have hname : target.toList = name := beq_iff_eq.mp (@find?_some _ _ (target, file) _ hfind)
    cases h
    rw [← hname]
    exact .fixed (mem_of_find?_eq_some hfind)
  split at h
  · next target file hfind =>
    have hname : target.toList = name := beq_iff_eq.mp (@find?_some _ _ (target, file) _ hfind)
    split at h
    · cases h
      rw [← hname]
      exact .config (mem_of_find?_eq_some hfind) rfl
    · cases h
  split at h
  · next hmail =>
    cases h
    rw [or_eq_true, or_eq_true] at hmail
    obtain (hdatabase | hobject) | hattachment := hmail
    · obtain ⟨stem, hstem, rfl⟩ := isMailDatabase_elim hdatabase
      rw [splitOn_databaseName, splitOn_databaseFile hstem]
      exact .database hstem
    · unfold validMailObjectPath at hobject
      split at hobject
      · next hsplit =>
        simp only [and_eq_true, beq_iff_eq, isSuffixOf_iff_suffix] at hobject
        obtain ⟨⟨⟨⟨⟨hroot, -⟩, -⟩, -⟩, hsuffix⟩, -⟩ := hobject
        subst hroot
        exact .object hsplit (.inl hsuffix)
      · cases hobject
    · unfold validMailAttachmentPath at hattachment
      split at hattachment
      · next hsplit =>
        simp only [and_eq_true, beq_iff_eq, isSuffixOf_iff_suffix] at hattachment
        obtain ⟨⟨hroot, -⟩, hsuffix⟩ := hattachment
        subst hroot
        exact .object hsplit (.inr hsuffix)
      · cases hattachment
  · cases h

/-! ## The files of an entry -/

variable {rest : Path}

theorem mapName_append (f : Text → Text) (dir : Path) (h : rest ≠ []) :
    mapName f (dir ++ rest) = dir ++ mapName f rest := by
  obtain ⟨init, last, rfl⟩ := eq_nil_or_concat' rest |>.resolve_left h
  rw [← append_assoc, mapName_concat, mapName_concat, append_assoc]

theorem journaledPaths_append (name : Text) (dir : Path) (h : rest ≠ []) :
    journaledPaths name (dir ++ rest) = (journaledPaths name rest).map (dir ++ ·) := by
  simp only [journaledPaths, withSuffix, redirectPath, withExtension, mapName_append _ dir h, map_cons,
    map_append, apply_ite (List.map (dir ++ ·)), map_nil]

/-- The part of a database's name that its redirect and its generation keep. -/
def keptStem (stem : Text) : Text := if stem = [] then ".db".toList else stem

theorem splitExtension_database (stem : Text) : (splitExtension (stem ++ ".db".toList)).1 = keptStem stem := by
  have hdot : (stem ++ ".db".toList).rdropWhile (· ≠ '.') = stem ++ ['.'] := by
    have hname : stem ++ ".db".toList = ((stem ++ ['.']) ++ ['d']) ++ ['b'] := by
      rw [append_assoc, append_assoc]
      rfl
    rw [hname, rdropWhile_concat_pos _ _ _ (by decide), rdropWhile_concat_pos _ _ _ (by decide),
      rdropWhile_concat_neg _ _ _ (by decide)]
  rw [splitExtension, keptStem]
  rw [hdot, length_append, length_singleton, dropLast_concat]
  by_cases hstem : stem = []
  · subst hstem
    rfl
  · have hpos := length_pos_iff.mpr hstem
    rw [if_neg (by omega), if_neg hstem]

def databaseKinds : List Text :=
  [".db".toList, "-wal".toList, "-shm".toList, ".redirect.json".toList, ".generation".toList]

/-- What is before the ending of a file of a database. -/
def fileStem (stem kind : Text) : Text :=
  if kind = ".db".toList then stem
  else if kind = "-wal".toList ∨ kind = "-shm".toList then stem ++ ".db".toList
  else keptStem stem

theorem journaledPaths_database (stem : Text) :
    journaledPaths (databaseName stem) ["mail-cache".toList, stem ++ ".db".toList]
      = databaseKinds.map fun kind => ["mail-cache".toList, fileStem stem kind ++ kind] := by
  have hstart : "mail-cache/".toList.isPrefixOf (databaseName stem) = true :=
    isPrefixOf_iff_prefix.mpr (prefix_append _ _)
  have hsuffix : ".db".toList.isSuffixOf (databaseName stem) = true :=
    isSuffixOf_iff_suffix.mpr ((suffix_append _ _).trans (suffix_append _ _))
  rw [journaledPaths, hstart, hsuffix]
  simp only [redirectPath, withExtension, withSuffix, mapName, splitExtension_database]
  rfl

theorem journaledPaths_of_suffix {name suffix : Text} (h : suffix <:+ name) (hdb : ¬".db".toList <:+ suffix)
    (hdb' : ¬suffix <:+ ".db".toList) (hsqlite : ¬".sqlite".toList <:+ suffix)
    (hsqlite' : ¬suffix <:+ ".sqlite".toList) (dst : Path) : journaledPaths name dst = [dst] := by
  have hnot {other : Text} (hother : ¬other <:+ suffix) (hother' : ¬suffix <:+ other) :
      ¬other.isSuffixOf name = true := by
    rw [isSuffixOf_iff_suffix]
    intro hname
    exact (suffix_or_suffix_of_suffix hname h).elim hother hother'
  rw [journaledPaths, eq_false_iff.mpr (hnot hdb hdb'), eq_false_iff.mpr (hnot hsqlite hsqlite'),
    Bool.and_false]
  rfl

theorem suffix_of_splitOn {name last : Text} {front : Path} {sep : Char} (h : name.splitOn sep = front ++ [last]) :
    last <:+ name := by
  have hname : [sep].intercalate (name.splitOn sep) = name := intercalate_splitOn sep
  rw [← hname, h, intercalate_append_of_ne_nil _ _ (cons_ne_nil _ _), intercalate_singleton]
  exact suffix_append _ _

/-! ## Files are apart -/

theorem databaseKinds_apart : databaseKinds.Pairwise fun s t => ¬s <:+ t ∧ ¬t <:+ s := by decide

/-- The files of the fixed entries. -/
def fixedFiles : List Path :=
  fixedTargets.flatMap fun target => journaledPaths target.1.toList (target.2.map String.toList)

theorem fixedFiles_table : fixedFiles.Nodup ∧ fixedFiles.all (fun rest => decide (rest.head? ≠ some "mail-cache".toList ∧
    rest.getLast?.any fun file => !configFiles.contains file)) = true := by
  decide

theorem fixedTargets_table : fixedTargets.all (fun target => decide (target.2.map String.toList ≠ [] ∧
    (∀ c ∈ target.2.map String.toList, Ordinary c) ∧
    (target.1.toList.splitOn '/').all fun part => missedPart part == false)) = true := by
  decide

theorem configTargets_table : configTargets.all (fun target => decide (".json".toList.isSuffixOf target.1.toList ∧
    Ordinary target.2.toList ∧ ((target.1.toList.splitOn '/').all fun part => missedPart part == false) ∧
    configTargets.all fun target' =>
      target.2.toList != target'.2.toList || target.1.toList == target'.1.toList)) = true := by
  decide

theorem of_table {β : Type} {p : β → Prop} [DecidablePred p] {table : List β}
    (h : table.all (fun target => decide (p target)) = true) {target : β} (mem : target ∈ table) : p target :=
  of_decide_eq_true (all_eq_true.mp h target mem)

/-- A file below the data directory that an entry has. -/
inductive DataFile : Text → Path → Prop where
  | fixed {target : String × List String} {rest : Path} (mem : target ∈ fixedTargets)
    (file : rest ∈ journaledPaths target.1.toList (target.2.map String.toList)) : DataFile target.1.toList rest
  | database {stem kind : Text} (mem : kind ∈ databaseKinds) :
    DataFile (databaseName stem) ["mail-cache".toList, fileStem stem kind ++ kind]
  | object {name second third fourth last : Text}
    (split : name.splitOn '/' = ["mail-cache".toList, second, third, fourth, last])
    (suffix : ".eml.gz".toList <:+ last ∨ ".bin".toList <:+ last) : DataFile name (name.splitOn '/')

theorem journaledPaths_object {name second third fourth last : Text}
    (split : name.splitOn '/' = ["mail-cache".toList, second, third, fourth, last])
    (suffix : ".eml.gz".toList <:+ last ∨ ".bin".toList <:+ last) (dst : Path) : journaledPaths name dst = [dst] := by
  have hlast : last <:+ name :=
    @suffix_of_splitOn name last ["mail-cache".toList, second, third, fourth] '/' split
  rcases suffix with h | h
  · exact journaledPaths_of_suffix (h.trans hlast) (by decide) (by decide) (by decide) (by decide) dst
  · exact journaledPaths_of_suffix (h.trans hlast) (by decide) (by decide) (by decide) (by decide) dst

theorem journaledPaths_config {target : String × String} (h : target ∈ configTargets) (dst : Path) :
    journaledPaths target.1.toList dst = [dst] := by
  have hsuffix := isSuffixOf_iff_suffix.mp (of_table configTargets_table h).1
  exact journaledPaths_of_suffix hsuffix (by decide) (by decide) (by decide) (by decide) dst

namespace Entry

variable {appData : Path} {configDir : Option Path} {name : Text} {dst path : Path}

theorem nodup (h : Entry appData configDir name dst) : (journaledPaths name dst).Nodup := by
  cases h with
  | fixed mem =>
    rw [journaledPaths_append _ _ (of_table fixedTargets_table mem).1]
    exact ((List.nodup_flatMap.mp fixedFiles_table.1).1 _ mem).map (append_right_injective appData)
  | config mem hdir =>
    rw [journaledPaths_config mem]
    exact nodup_singleton _
  | @database stem _ =>
    rw [journaledPaths_append _ _ (cons_ne_nil _ _), journaledPaths_database]
    refine List.Nodup.map (append_right_injective appData) (pairwise_map.mpr ?_)
    refine databaseKinds_apart.imp_of_mem fun {s t} hs ht happart heq => ?_
    have hname : fileStem stem s ++ s = fileStem stem t ++ t := singleton_injective (List.cons.inj heq).2
    exact happart.1 ((append_ending_inj databaseKinds_apart hs ht hname).2 ▸ suffix_rfl)
  | object split suffix =>
    rw [journaledPaths_object split suffix]
    exact nodup_singleton _

/-- Where the files of an entry are. -/
theorem mem_journaledPaths (h : Entry appData configDir name dst) (hpath : path ∈ journaledPaths name dst) :
    (∃ rest, DataFile name rest ∧ path = appData ++ rest) ∨
      ∃ dir target, configDir = some dir ∧ target ∈ configTargets ∧ name = target.1.toList ∧
        path = dir ++ ["taomni".toList, target.2.toList] := by
  cases h with
  | fixed mem =>
    rw [journaledPaths_append _ _ (of_table fixedTargets_table mem).1] at hpath
    obtain ⟨rest, hrest, rfl⟩ := mem_map.mp hpath
    exact .inl ⟨rest, .fixed mem hrest, rfl⟩
  | config mem hdir =>
    rw [journaledPaths_config mem] at hpath
    exact .inr ⟨_, _, hdir, mem, rfl, mem_singleton.mp hpath⟩
  | @database stem _ =>
    rw [journaledPaths_append _ _ (cons_ne_nil _ _), journaledPaths_database] at hpath
    obtain ⟨rest, hrest, rfl⟩ := mem_map.mp hpath
    obtain ⟨kind, hkind, rfl⟩ := mem_map.mp hrest
    exact .inl ⟨_, .database hkind, rfl⟩
  | object split suffix =>
    rw [journaledPaths_object split suffix] at hpath
    exact .inl ⟨_, .object split suffix, mem_singleton.mp hpath⟩

end Entry

/-! ## Entries are apart -/

theorem not_config_of_ending {ending file : Text} (h : ending ∈ databaseKinds ++ [".eml.gz".toList, ".bin".toList])
    (hfile : ending <:+ file) : file ∉ configFiles := by
  have hall : (databaseKinds ++ [".eml.gz".toList, ".bin".toList]).all
      (fun ending => configFiles.all fun file => !ending.isSuffixOf file) = true := by decide
  intro hconfig
  have hnot := all_eq_true.mp (all_eq_true.mp hall ending h) file hconfig
  rw [Bool.not_eq_true', eq_false_iff] at hnot
  exact hnot (isSuffixOf_iff_suffix.mpr hfile)

namespace DataFile

variable {name name' : Text} {path : Path}

/-- No file of the data directory is called like one of the configuration. -/
theorem last (h : DataFile name path) : ∃ init file, path = init ++ [file] ∧ file ∉ configFiles := by
  cases h with
  | @fixed target rest mem file =>
    have hrest := of_table fixedFiles_table.2 (mem_flatMap.mpr ⟨target, mem, file⟩)
    obtain ⟨last, hlast, hconfig⟩ := Option.any_eq_true _ _ |>.mp hrest.2
    obtain ⟨init, rfl⟩ := List.getLast?_eq_some_iff.mp hlast
    rw [Bool.not_eq_true', eq_false_iff] at hconfig
    exact ⟨init, last, rfl, fun hmem => hconfig (contains_iff_mem.mpr hmem)⟩
  | @database stem kind mem =>
    exact ⟨["mail-cache".toList], _, rfl,
      not_config_of_ending (mem_append_left _ mem) (suffix_append (fileStem stem kind) kind)⟩
  | @object _ second third fourth last split suffix =>
    refine ⟨["mail-cache".toList, second, third, fourth], last, split, ?_⟩
    rcases suffix with h | h
    · exact not_config_of_ending (mem_append_right _ mem_cons_self) h
    · exact not_config_of_ending (mem_append_right _ (mem_cons_of_mem _ mem_cons_self)) h

theorem head_fixed {target : String × List String} (mem : target ∈ fixedTargets)
    (file : rest ∈ journaledPaths target.1.toList (target.2.map String.toList)) :
    rest.head? ≠ some "mail-cache".toList :=
  (of_table fixedFiles_table.2 (mem_flatMap.mpr ⟨target, mem, file⟩)).1

theorem fixed_unique {target target' : String × List String} (mem : target ∈ fixedTargets)
    (mem' : target' ∈ fixedTargets) (file : rest ∈ journaledPaths target.1.toList (target.2.map String.toList))
    (file' : rest ∈ journaledPaths target'.1.toList (target'.2.map String.toList)) : target = target' := by
  by_contra hne
  have hpairwise := (List.nodup_flatMap.mp fixedFiles_table.1).2
  have : Std.Symm (Function.onFun List.Disjoint fun target : String × List String =>
      journaledPaths target.1.toList (target.2.map String.toList)) := ⟨fun _ _ hdisjoint _ hleft hright => hdisjoint hright hleft⟩
  exact hpairwise.forall mem mem' hne file file'

theorem fileStem_unique {stem stem' kind : Text} (h : fileStem stem kind = fileStem stem' kind) :
    databaseName stem = databaseName stem' ∨ Twins (databaseName stem) (databaseName stem') ∨
      Twins (databaseName stem') (databaseName stem) := by
  unfold fileStem at h
  split at h
  · exact .inl (congrArg databaseName h)
  split at h
  · exact .inl (congrArg databaseName (append_cancel_right h))
  unfold keptStem at h
  split at h
  · next hstem =>
    split at h
    · next hstem' => exact .inl (by rw [hstem, hstem'])
    · exact .inr (.inl ⟨by rw [hstem]; rfl, by rw [← h]; rfl⟩)
  · split at h
    · next hstem' => exact .inr (.inr ⟨by rw [hstem']; rfl, by rw [h]; rfl⟩)
    · exact .inl (congrArg databaseName h)

/-- Only the twins have a file in common. -/
theorem unique (h : DataFile name path) (h' : DataFile name' path) :
    name = name' ∨ Twins name name' ∨ Twins name' name := by
  generalize heq : path = path' at h'
  cases h with
  | fixed mem file =>
    cases h' with
    | fixed mem' file' =>
      subst heq
      rw [fixed_unique mem mem' file file']
      exact .inl rfl
    | database => exact absurd (congrArg List.head? heq) (head_fixed mem file)
    | object split =>
      rw [split] at heq
      exact absurd (congrArg List.head? heq) (head_fixed mem file)
  | database hkind =>
    cases h' with
    | fixed mem file => exact absurd (congrArg List.head? heq.symm) (head_fixed mem file)
    | database hkind' =>
      have hfile := singleton_injective (List.cons.inj heq).2
      obtain ⟨hstem, rfl⟩ := append_ending_inj databaseKinds_apart hkind hkind' hfile
      exact fileStem_unique hstem
    | object split =>
      rw [split] at heq
      cases heq
  | object split =>
    cases h' with
    | fixed mem file =>
      rw [split] at heq
      exact absurd (congrArg List.head? heq.symm) (head_fixed mem file)
    | database =>
      rw [split] at heq
      cases heq
    | object split' =>
      have hname := congrArg ['/'].intercalate heq
      rw [intercalate_splitOn, intercalate_splitOn] at hname
      exact .inl hname

end DataFile

theorem configTargets_unique {target target' : String × String} (h : target ∈ configTargets)
    (h' : target' ∈ configTargets) (heq : target.2.toList = target'.2.toList) :
    target.1.toList = target'.1.toList := by
  have hor := all_eq_true.mp (of_table configTargets_table h).2.2.2 target' h'
  rw [heq, bne_self_eq_false, Bool.false_or, beq_iff_eq] at hor
  exact hor

/-- Two entries that have a file in common. -/
theorem Entry.unique {appData : Path} {configDir : Option Path} {first second : Text} {dst dst' path : Path}
    (h : Entry appData configDir first dst) (h' : Entry appData configDir second dst')
    (hpath : path ∈ journaledPaths first dst) (hpath' : path ∈ journaledPaths second dst') :
    first = second ∨ Twins first second ∨ Twins second first := by
  have hmixed {name : Text} {dir rest : Path} {target : String × String} (hfile : DataFile name rest)
      (hmem : target ∈ configTargets) (heq : appData ++ rest = dir ++ ["taomni".toList, target.2.toList]) : False := by
    obtain ⟨init, last, rfl, hlast⟩ := hfile.last
    have hend : (appData ++ init) ++ [last] = (dir ++ ["taomni".toList]) ++ [target.2.toList] := by
      rw [append_assoc, heq, append_assoc]
      rfl
    rw [singleton_injective (append_inj' hend rfl).2] at hlast
    exact hlast (mem_map_of_mem hmem)
  rcases h.mem_journaledPaths hpath with ⟨rest, hfile, rfl⟩ | ⟨dir, target, hdir, hmem, rfl, rfl⟩
  · rcases h'.mem_journaledPaths hpath' with ⟨rest', hfile', heq⟩ | ⟨dir, target, -, hmem, -, heq⟩
    · rw [append_cancel_left heq] at hfile
      exact hfile.unique hfile'
    · exact (hmixed hfile hmem heq).elim
  · rcases h'.mem_journaledPaths hpath' with ⟨rest', hfile', heq⟩ | ⟨dir', target', hdir', hmem', rfl, heq⟩
    · exact (hmixed hfile' hmem heq.symm).elim
    · rw [hdir] at hdir'
      cases hdir'
      have hfile : target.2.toList = target'.2.toList := (List.cons.inj (List.cons.inj (append_cancel_left heq)).2).1
      exact .inl (configTargets_unique hmem hmem' hfile)

/-! ## Entries keep inside -/

section

variable {name : Text}

theorem plain_of_checkedPath (h : checkedPath name = .ok ()) : ('\\' ∉ name ∧ ':' ∉ name) ∧
    ∀ part ∈ name.splitOn '/', unsafePart part = false ∧ reservedPart part = false := by
  unfold checkedPath at h
  split at h
  · cases h
  · next hplain =>
    split at h
    · cases h
    · next hreserved =>
      simp only [not_or, Bool.not_eq_true, any_eq_false] at hplain hreserved
      obtain ⟨-, hbackslash, hcolon, -, hparent⟩ := hplain
      exact ⟨⟨hbackslash, hcolon⟩, fun part hpart => ⟨hparent part hpart, hreserved part hpart⟩⟩

/-- A part of a checked name leads nowhere else exactly if it is no device that the check misses. -/
theorem ordinary_iff (h : checkedPath name = .ok ()) {part : Text} (hpart : part ∈ name.splitOn '/') :
    Ordinary part ↔ missedPart part = false := by
  obtain ⟨⟨hbackslash, hcolon⟩, hparts⟩ := plain_of_checkedPath h
  obtain ⟨hparent, hreserved⟩ := hparts part hpart
  have hdevice := isReservedDevice_eq part
  rw [hreserved, Bool.false_or] at hdevice
  constructor
  · intro hordinary
    rw [← hdevice, hordinary.noDevice]
  · intro hmissed
    have hletters := (isInfix_of_mem_splitOn hpart).subset
    simp only [unsafePart, Bool.or_eq_false_iff, beq_eq_false_iff_ne] at hparent
    obtain ⟨⟨⟨⟨⟨hnil, hdot⟩, hdots⟩, -⟩, -⟩, -⟩ := hparent
    exact ⟨hnil, hdot, hdots, not_mem_of_mem_splitOn hpart, fun hc => hbackslash (hletters hc),
      fun hc => hcolon (hletters hc), hdevice.trans hmissed⟩

theorem contained_mail_iff {appData : Path} {configDir : Option Path} (h : checkedPath name = .ok ())
    (hlast : ∃ init file, name.splitOn '/' = init ++ [file] ∧ file ∉ configFiles) :
    Contained appData configDir (appData ++ name.splitOn '/') ↔ Checked name := by
  constructor
  · rintro (⟨rest, -, hordinary, heq⟩ | ⟨dir, file, -, hfile, -, heq⟩)
    · rw [← append_cancel_left heq] at hordinary
      exact fun part hpart => (ordinary_iff h hpart).mp (hordinary part hpart)
    · obtain ⟨init, last, hsplit, hlast⟩ := hlast
      have hend : (appData ++ init) ++ [last] = (dir ++ ["taomni".toList]) ++ [file] := by
        rw [append_assoc, ← hsplit, heq, append_assoc]
        rfl
      rw [singleton_injective (append_inj' hend rfl).2] at hlast
      exact absurd hfile hlast
  · intro hchecked
    exact .inl ⟨_, splitOn_ne_nil _ _, fun part hpart => (ordinary_iff h hpart).mpr (hchecked part hpart), rfl⟩

end

theorem contained_iff {appData dst : Path} {configDir : Option Path} {name : Text}
    (h : destination appData configDir name = .ok dst) : Contained appData configDir dst ↔ Checked name := by
  have hcheck := checkedPath_of_destination h
  cases entry_of_destination h with
  | @fixed target mem =>
    obtain ⟨hne, hordinary, hmissed⟩ := of_table fixedTargets_table mem
    exact iff_of_true (.inl ⟨_, hne, hordinary, rfl⟩) fun part hpart =>
      beq_iff_eq.mp (all_eq_true.mp hmissed part hpart)
  | @config target dir mem hdir =>
    obtain ⟨-, hordinary, hmissed, -⟩ := of_table configTargets_table mem
    exact iff_of_true (.inr ⟨dir, _, hdir, mem_map_of_mem mem, hordinary, rfl⟩) fun part hpart =>
      beq_iff_eq.mp (all_eq_true.mp hmissed part hpart)
  | @database stem noSlash =>
    have hsplit : (databaseName stem).splitOn '/' = ["mail-cache".toList] ++ [stem ++ ".db".toList] := by
      rw [splitOn_databaseName, splitOn_databaseFile noSlash]
      rfl
    have hfile := not_config_of_ending (mem_append_left _ mem_cons_self) (suffix_append stem ".db".toList)
    have hiff : Contained appData configDir (appData ++ (databaseName stem).splitOn '/') ↔ Checked (databaseName stem) :=
      contained_mail_iff hcheck ⟨_, _, hsplit, hfile⟩
    rwa [hsplit] at hiff
  | object split suffix => exact contained_mail_iff hcheck (DataFile.object split suffix).last

/-! ## Safe entries -/

section

variable {appData : Path} {configDir : Option Path} {first second : Text} {dst dst' : Path}

theorem destination_twins (appData : Path) (configDir : Option Path) :
    destination appData configDir "mail-cache/.db".toList = .ok (appData ++ ["mail-cache".toList, ".db".toList]) ∧
      destination appData configDir "mail-cache/.db.db".toList
        = .ok (appData ++ ["mail-cache".toList, ".db.db".toList]) := ⟨rfl, rfl⟩

/-- The twins have a redirect and a generation in common. -/
theorem not_disjoint_twins (hfirst : destination appData configDir first = .ok dst)
    (hsecond : destination appData configDir second = .ok dst') (h : Twins first second) :
    ∃ path, path ∈ journaledPaths first dst ∧ path ∈ journaledPaths second dst' := by
  obtain ⟨rfl, rfl⟩ := h
  obtain ⟨htwin, htwin'⟩ := destination_twins appData configDir
  cases htwin.symm.trans hfirst
  cases htwin'.symm.trans hsecond
  refine ⟨appData ++ ["mail-cache".toList, ".db.generation".toList], ?_, ?_⟩
  · rw [journaledPaths_append _ _ (cons_ne_nil _ _)]
    exact mem_map_of_mem (by decide)
  · rw [journaledPaths_append _ _ (cons_ne_nil _ _)]
    exact mem_map_of_mem (by decide)

theorem distinct_iff (hfirst : destination appData configDir first = .ok dst)
    (hsecond : destination appData configDir second = .ok dst') (hne : first ≠ second) :
    (journaledPaths first dst ++ journaledPaths second dst').Nodup ↔ ¬Twins first second ∧ ¬Twins second first := by
  have hentry := entry_of_destination hfirst
  have hentry' := entry_of_destination hsecond
  constructor
  · intro hnodup
    have hdisjoint := (List.nodup_append'.mp hnodup).2.2
    refine ⟨fun htwins => ?_, fun htwins => ?_⟩
    · obtain ⟨path, hpath, hpath'⟩ := not_disjoint_twins hfirst hsecond htwins
      exact hdisjoint hpath hpath'
    · obtain ⟨path, hpath', hpath⟩ := not_disjoint_twins hsecond hfirst htwins
      exact hdisjoint hpath hpath'
  · rintro ⟨htwins, htwins'⟩
    refine hentry.nodup.append hentry'.nodup fun path hpath hpath' => ?_
    rcases hentry.unique hentry' hpath hpath' with heq | htwin | htwin
    · exact hne heq
    · exact htwins htwin
    · exact htwins' htwin

end

end Taomni.Backup
