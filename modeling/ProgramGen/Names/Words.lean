import ProgramGen.Language

/-!
# Words

The words that programs take their names from, and the words that each language reserves.
-/

namespace ProgramGen

/-- The words of the pool, in the order in which it starts. -/
def wordList : List String := [
  "abbey", "able", "about", "above", "absent", "abyss", "accent", "access", "acorn", "acre",
  "actor", "adapt", "admiral", "adobe", "advent", "aerial", "affair", "agenda", "agent", "alarm",
  "album", "alder", "alley", "alloy", "almond", "alpine", "altar", "amber", "ample", "anchor",
  "angle", "ankle", "answer", "anvil", "apple", "apricot", "apron", "arbor", "arcade", "archer",
  "arctic", "arena", "argue", "armor", "arrow", "artist", "ashen", "aspen", "aster", "atlas",
  "attic", "auburn", "august", "aunt", "autumn", "avenue", "awning", "axis", "badge", "bagel",
  "baker", "balcony", "ballad", "bamboo", "banana", "banner", "barley", "barn", "barrel", "basin",
  "basket", "baton", "bazaar", "beacon", "beaker", "beard", "beaver", "bedrock", "beetle",
  "bellow", "bench", "berry", "beverage", "bicycle", "binder", "birch", "biscuit", "bishop",
  "blade", "blanket", "blaze", "blender", "blossom", "bluff", "board", "bobbin", "bolt", "bonnet",
  "border", "bottle", "boulder", "bounty", "bowl", "bracket", "brass", "bread", "breeze", "brick",
  "bridge", "brisk", "broker", "bronze", "brook", "broom", "bubble", "bucket", "budget",
  "buffalo", "bugle", "bundle", "burrow", "butter", "button", "buzzard", "cabin", "cable",
  "cactus", "camel", "canal", "candle", "canoe", "canopy", "canvas", "canyon", "captain",
  "carbon", "cargo", "carpet", "carrot", "cartoon", "cascade", "castle", "cattle", "cavern",
  "cedar", "cellar", "cement", "census", "cereal", "chalk", "chamber", "chapel", "charcoal",
  "chariot", "cherry", "chestnut", "chimney", "chisel", "chorus", "cider", "cinder", "circle",
  "citadel", "citrus", "clamp", "clarinet", "clay", "cliff", "clock", "clover", "cobalt",
  "cobble", "cocoa", "coconut", "collar", "comet", "compass", "copper", "coral", "cordial",
  "cotton", "cougar", "county", "coyote", "cradle", "crane", "crater", "crayon", "creek",
  "cricket", "crimson", "crystal", "cupboard", "curtain", "cushion", "cypress", "dagger", "daisy",
  "damsel", "dancer", "dapple", "dawn", "debris", "decade", "decoy", "delta", "denim", "depot",
  "desert", "dial", "diamond", "diesel", "dinghy", "dinner", "doctor", "dolphin", "domain",
  "donkey", "doodle", "dragon", "drawer", "dream", "drift", "drizzle", "drum", "dune", "dusk",
  "dynamo", "eagle", "earth", "easel", "echo", "eclipse", "eddy", "edge", "eel", "ember",
  "emerald", "empire", "engine", "envoy", "epoch", "errand", "escort", "estate", "ether",
  "evening", "exile", "expert", "fable", "fabric", "falcon", "fallow", "famine", "fathom",
  "feather", "fennel", "ferry", "fiber", "fiddle", "figure", "filament", "finch", "fjord",
  "flagon", "flame", "flannel", "flask", "fleet", "flint", "flora", "flute", "foam", "fodder",
  "forest", "forge", "fossil", "fountain", "fox", "fragment", "freckle", "fresco", "frigate",
  "frost", "fungus", "furnace", "gable", "galaxy", "galley", "gallon", "garden", "garlic",
  "garnet", "gasket", "gazelle", "gecko", "geyser", "giant", "ginger", "glacier", "glade",
  "glider", "globe", "glove", "goblet", "gondola", "gorge", "gourd", "granite", "grape", "gravel",
  "griffin", "grove", "guitar", "gully", "gust", "habitat", "hamlet", "hammer", "hangar",
  "harbor", "harvest", "hatch", "haven", "hawk", "hazel", "heather", "hedge", "helmet", "herald",
  "heron", "hickory", "hinge", "hollow", "honey", "hornet", "hostel", "hound", "hull", "humble",
  "hunter", "hurdle", "husk", "hymn", "iceberg", "icicle", "idol", "igloo", "inlet", "insect",
  "island", "ivory", "jacket", "jaguar", "jasmine", "javelin", "jelly", "jersey", "jester",
  "jewel", "jigsaw", "jockey", "journal", "jungle", "juniper", "kayak", "kennel", "kernel",
  "kettle", "kidney", "kiln", "kitten", "knapsack", "knight", "knoll", "label", "ladder",
  "lagoon", "lantern", "larch", "lasso", "lattice", "lava", "lawn", "lemon", "lentil", "leopard",
  "lever", "lilac", "limber", "linen", "lizard", "lobster", "locket", "lodge", "lotus", "lumber",
  "lunar", "lute", "lynx", "magnet", "mallet", "mango", "mantle", "maple", "marble", "margin",
  "marina", "marrow", "marsh", "mason", "meadow", "medal", "melon", "mentor", "meteor", "mill",
  "mineral", "mirror", "mitten", "moat", "monarch", "monsoon", "mortar", "mosaic", "moss",
  "muffin", "mural", "mustard", "myrtle", "napkin", "narrow", "nebula", "nectar", "needle",
  "nephew", "nickel", "nimbus", "noodle", "nozzle", "nugget", "nutmeg", "oak", "oasis", "ocean",
  "octave", "olive", "onion", "opal", "orbit", "orchard", "orchid", "organ", "otter", "oven",
  "owl", "oyster", "paddle", "pagoda", "palace", "panther", "parcel", "parlor", "parrot",
  "pasture", "pebble", "pelican", "pencil", "pepper", "petal", "pewter", "phantom", "pilgrim",
  "pillow", "pilot", "pine", "pistachio", "planet", "plaza", "plume", "pocket", "polar", "pollen",
  "pond", "poplar", "porch", "portal", "potato", "prairie", "prism", "puddle", "pulley",
  "pumpkin", "puppet", "quail", "quarry", "quartz", "quilt", "quiver", "rabbit", "radish", "raft",
  "rafter", "raisin", "rampart", "ranch", "rapids", "raven", "reed", "reef", "relic", "ribbon",
  "ridge", "river", "robin", "rocket", "rooster", "rudder", "rustle", "saddle", "saffron",
  "sailor", "salmon", "sandal", "sapling", "satchel", "saucer", "savanna", "scarf", "scepter",
  "schooner", "scroll", "sentry", "shadow", "shelter", "shovel", "shrub", "signal", "silk",
  "silver", "sketch", "sleigh", "slope", "sonnet", "spade", "sparrow", "spindle", "sponge",
  "spruce", "squirrel", "stable", "stallion", "statue", "steeple", "stencil", "summit", "sunset",
  "swallow", "sycamore", "tablet", "tadpole", "talon", "tangerine", "tapestry", "tavern",
  "teapot", "temple", "terrace", "thicket", "thimble", "thistle", "thunder", "timber", "tinder",
  "toffee", "topaz", "torch", "tower", "trellis", "trophy", "trumpet", "tulip", "tundra",
  "tunnel", "turnip", "turret", "twilight", "umber", "umbrella", "unicorn", "upland", "urchin",
  "valley", "vapor", "vault", "velvet", "venom", "verse", "vessel", "villa", "vine", "violet",
  "viper", "volcano", "voyage", "wagon", "walnut", "walrus", "warden", "wattle", "weasel",
  "whistle", "willow", "window", "winter", "wizard", "wombat", "yacht", "yarrow", "yodel",
  "yonder", "zenith", "zephyr", "zinnia"]

/-- The keywords of a language, and the names that every program uses for itself. -/
def Language.reservedWords : Language → List String
  | .kotlin => [
    "as", "break", "class", "continue", "do", "else", "false", "for", "fun", "if", "in",
    "interface", "is", "null", "object", "package", "return", "super", "this", "throw", "true",
    "try", "typealias", "typeof", "val", "var", "when", "while", "by", "catch", "constructor",
    "field", "finally", "get", "import", "init", "set", "value", "where", "open", "data", "inner",
    "out", "main", "args"]
  | .java => [
    "abstract", "assert", "boolean", "break", "byte", "case", "catch", "char", "class", "const",
    "continue", "default", "do", "double", "else", "enum", "extends", "final", "finally", "float",
    "for", "goto", "if", "implements", "import", "instanceof", "int", "interface", "long",
    "native", "new", "package", "private", "protected", "public", "return", "short", "static",
    "strictfp", "super", "switch", "synchronized", "this", "throw", "throws", "transient", "try",
    "void", "volatile", "while", "var", "record", "yield", "main", "args"]

end ProgramGen
