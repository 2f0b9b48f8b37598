import Mathlib.Data.List.FinRange

/-!
# Family table

Per-family process codes, recipes, temp-recipe layout and statistics ids.  A
pointer into the family table is an index.  The display names of families and
recipes stand beside the screens that show them.
-/

namespace Nivona

/-! ## Recipes -/

/-- Recipe category, which selects the brew ramp. -/
inductive RecipeCategory
  | espresso | coffee | americano | milkDrink | milkOnly | water | unknown
  deriving DecidableEq, Repr

structure Recipe where
  selector : UInt8
  category : RecipeCategory
  deriving DecidableEq, Repr

/-- Offsets inside the temp-recipe block; `-1` marks an absent field. -/
structure RecipeLayout where
  strength : Int8
  twoCups : Int8
  coffeeAmount : Int8
  waterAmount : Int8
  milkAmount : Int8
  milkFoamAmount : Int8
  deriving DecidableEq, Repr

structure Family where
  key : String
  bleName : String
  processReady : Int16
  processBrewing : Int16
  hasMilkSystem : Bool
  hasPowderLid : Bool
  brewCommandMode : UInt8
  recipes : List Recipe
  recipeLayout : RecipeLayout
  deriving DecidableEq, Repr

def RECIPES_600 : List Recipe :=
  [⟨0, .espresso⟩, ⟨1, .coffee⟩, ⟨2, .americano⟩, ⟨3, .milkDrink⟩,
   ⟨4, .milkOnly⟩, ⟨5, .water⟩]

def RECIPES_700 : List Recipe :=
  [⟨0, .espresso⟩, ⟨1, .coffee⟩, ⟨2, .coffee⟩, ⟨3, .americano⟩,
   ⟨4, .milkDrink⟩, ⟨5, .milkDrink⟩, ⟨6, .milkOnly⟩, ⟨7, .water⟩]

/-- Selector 4 is absent on this family. -/
def RECIPES_79X : List Recipe :=
  [⟨0, .espresso⟩, ⟨1, .coffee⟩, ⟨2, .americano⟩, ⟨3, .milkDrink⟩,
   ⟨5, .milkDrink⟩, ⟨6, .milkOnly⟩, ⟨7, .water⟩]

def RECIPES_900 : List Recipe :=
  [⟨0, .espresso⟩, ⟨1, .coffee⟩, ⟨2, .americano⟩, ⟨3, .milkDrink⟩,
   ⟨4, .milkDrink⟩, ⟨5, .milkDrink⟩, ⟨6, .milkOnly⟩, ⟨7, .water⟩]

def RECIPES_1030 : List Recipe :=
  [⟨0, .espresso⟩, ⟨1, .coffee⟩, ⟨2, .americano⟩, ⟨3, .milkDrink⟩,
   ⟨4, .milkDrink⟩, ⟨5, .milkDrink⟩, ⟨6, .water⟩, ⟨7, .milkOnly⟩,
   ⟨8, .milkOnly⟩, ⟨9, .milkOnly⟩]

def RECIPES_1040 : List Recipe :=
  [⟨0, .espresso⟩, ⟨1, .coffee⟩, ⟨2, .americano⟩, ⟨3, .milkDrink⟩,
   ⟨4, .milkDrink⟩, ⟨5, .milkDrink⟩, ⟨6, .water⟩, ⟨7, .milkOnly⟩,
   ⟨8, .milkOnly⟩]

/-- Selectors 8 to 10 are the chilled drinks, on the base ramps. -/
def RECIPES_8000 : List Recipe :=
  [⟨0, .espresso⟩, ⟨1, .coffee⟩, ⟨2, .americano⟩, ⟨3, .milkDrink⟩,
   ⟨4, .milkDrink⟩, ⟨5, .milkDrink⟩, ⟨6, .milkOnly⟩, ⟨7, .water⟩,
   ⟨8, .espresso⟩, ⟨9, .coffee⟩, ⟨10, .americano⟩]

def LAYOUT_600 : RecipeLayout := ⟨1, 4, 5, 6, -1, 8⟩
def LAYOUT_700 : RecipeLayout := ⟨1, 4, 5, 6, 7, 8⟩
def LAYOUT_79X : RecipeLayout := ⟨1, 4, 5, 6, 7, 8⟩
def LAYOUT_900 : RecipeLayout := ⟨1, 4, 9, 10, 11, 12⟩
def LAYOUT_1000 : RecipeLayout := ⟨1, 4, 9, 10, 11, 12⟩
def LAYOUT_8000 : RecipeLayout := ⟨1, 4, 5, 6, 7, 8⟩

def NIVONA_FAMILIES : Vector Family 8 :=
  #v[⟨"600", "6801000001-----", 8, 11, false, false, 0x0B, RECIPES_600, LAYOUT_600⟩,
     ⟨"700", "7591000001-----", 8, 11, false, false, 0x0B, RECIPES_700, LAYOUT_700⟩,
     ⟨"79x", "7951000001-----", 8, 11, false, false, 0x0B, RECIPES_79X, LAYOUT_79X⟩,
     ⟨"900", "9301000001-----", 8, 11, true, false, 0x0B, RECIPES_900, LAYOUT_900⟩,
     ⟨"900-light", "9701000001-----", 8, 11, true, false, 0x0B, RECIPES_900, LAYOUT_900⟩,
     ⟨"1030", "0301000001-----", 8, 11, true, true, 0x0B, RECIPES_1030, LAYOUT_1000⟩,
     ⟨"1040", "0401000001-----", 8, 11, true, true, 0x0B, RECIPES_1040, LAYOUT_1000⟩,
     ⟨"8000", "8107000001-----", 3, 4, true, true, 0x04, RECIPES_8000, LAYOUT_8000⟩]

/-- A pointer into `NIVONA_FAMILIES`. -/
abbrev FamilyId := Fin 8

/-- The table row a pointer designates. -/
def familyRow (f : FamilyId) : Family := NIVONA_FAMILIES.get f

/-- First family with the given key. -/
def nivonaFamilyFind (key : String) : Option FamilyId :=
  (List.finRange 8).find? fun f => (familyRow f).key == key

/-- The recipe of a selector on a family. -/
def nivonaFamilyRecipeBySelector (fam : Family) (selector : UInt8) : Option Recipe :=
  fam.recipes.find? fun r => r.selector == selector

def NIVONA_TEMP_RECIPE_BASE : Int16 := 9001

/-- Register of a temp-recipe field, `-1` for an absent one. -/
def nivonaTempRecipeReg (offset : Int8) : Int16 :=
  if offset < 0 then -1 else NIVONA_TEMP_RECIPE_BASE + offset.toInt16

/-- A key that is found is the key of the family found. -/
theorem key_of_nivonaFamilyFind {key : String} {f : FamilyId}
    (h : nivonaFamilyFind key = some f) : (familyRow f).key = key := by
  simpa using List.find?_some h

/-! ## Statistics ids -/

/-- The statistics ids of a family that the emulator writes or seeds; 0 means
"not present". -/
structure Stats where
  recipeIdMask : UInt32
  totalId : Int16
  cleanCoffeeId : Int16
  rinseId : Int16
  filterChangeId : Int16
  descaleId : Int16
  viaAppId : Int16
  filterDepId : Int16
  deriving DecidableEq, Repr

/-- Bit of recipe counter `200 + n`. -/
def statBit (n : ℕ) : UInt32 := 1 <<< UInt32.ofNat n

/-- Mask of a list of recipe counters. -/
def statMask (ns : List ℕ) : UInt32 :=
  ns.foldl (fun m n => m ||| statBit n) 0

def STATS_8000 : Stats :=
  { recipeIdMask := statMask [0, 1, 2, 3, 4, 5, 6, 7, 8, 9, 10, 13]
    totalId := 213, cleanCoffeeId := 214, rinseId := 216
    filterChangeId := 219, descaleId := 220, viaAppId := 221
    filterDepId := 642 }

def STATS_1000 : Stats :=
  { recipeIdMask := statMask [0, 1, 2, 3, 4, 5, 6, 7, 8, 9, 11, 12, 13, 14]
    totalId := 215, cleanCoffeeId := 216, rinseId := 218
    filterChangeId := 221, descaleId := 222, viaAppId := 223
    filterDepId := 101 }

def STATS_700 : Stats :=
  { recipeIdMask := statMask [0, 1, 2, 3, 4, 5, 6, 7, 8]
    totalId := 0, cleanCoffeeId := 0, rinseId := 0
    filterChangeId := 0, descaleId := 0, viaAppId := 0
    filterDepId := 105 }

def STATS_79X : Stats :=
  { recipeIdMask := statMask [0, 1, 2, 3, 5, 6, 7, 8]
    totalId := 0, cleanCoffeeId := 0, rinseId := 0
    filterChangeId := 0, descaleId := 0, viaAppId := 0
    filterDepId := 105 }

def STATS_600 : Stats :=
  { recipeIdMask := statMask [0, 1, 3, 4, 6, 7, 8]
    totalId := 0, cleanCoffeeId := 0, rinseId := 0
    filterChangeId := 0, descaleId := 0, viaAppId := 0
    filterDepId := 105 }

def STATS_900 : Stats :=
  { recipeIdMask := statMask [0, 1, 2, 3, 4, 5, 6, 7, 8, 9, 10, 11, 12, 13]
    totalId := 213, cleanCoffeeId := 214, rinseId := 216
    filterChangeId := 219, descaleId := 220, viaAppId := 221
    filterDepId := 101 }

/-- The 1000 table without selector 7. -/
def STATS_1040 : Stats :=
  { STATS_1000 with recipeIdMask := STATS_1000.recipeIdMask &&& ~~~statBit 7 }

/-- Statistics table of a family key; unknown keys get the 8000 table. -/
def nivonaStatsForFamily (key : String) : Stats :=
  if key = "8000" then STATS_8000
  else if key = "1030" then STATS_1000
  else if key = "1040" then STATS_1040
  else if key = "900" then STATS_900
  else if key = "900-light" then STATS_900
  else if key = "79x" then STATS_79X
  else if key = "700" then STATS_700
  else if key = "600" then STATS_600
  else STATS_8000

/-- Statistics table of the current family. -/
def nivonaStatsCurrent (f : FamilyId) : Stats :=
  nivonaStatsForFamily (familyRow f).key

/-- Is `200 + selector` a recipe counter of the table? -/
def nivonaStatsHasRecipeCounter (s : Stats) (selector : UInt8) : Bool :=
  if selector ≥ 25 then false
  else s.recipeIdMask &&& (1 <<< selector.toUInt32) != 0

end Nivona
