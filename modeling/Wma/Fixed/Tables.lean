/-!
# Sine and power tables

The circle is divided into 32768 steps. A quarter of it holds 64 coarse steps of 128 fine ones, so
that any sine comes from a coarse and a fine entry by the sum rule. All entries of the sine tables
are rounded to 31 fractional bits, and the power table to 30.
-/

namespace Wma

/-- `sin (a * π / 128)` for `a` up to 64. -/
def sineCoarse : Array Int32 :=
  #[0, 52701887, 105372028, 157978697, 210490206, 262874923, 315101295, 367137861, 418953276,
    470516330, 521795963, 572761285, 623381598, 673626408, 723465451, 772868706, 821806413,
    870249095, 918167572, 965532978, 1012316784, 1058490808, 1104027237, 1148898640, 1193077991,
    1236538675, 1279254516, 1321199781, 1362349204, 1402678000, 1442161874, 1480777044, 1518500250,
    1555308768, 1591180426, 1626093616, 1660027308, 1692961062, 1724875040, 1755750017, 1785567396,
    1814309216, 1841958164, 1868497586, 1893911494, 1918184581, 1941302225, 1963250501, 1984016189,
    2003586779, 2021950484, 2039096241, 2055013723, 2069693342, 2083126254, 2095304370, 2106220352,
    2115867626, 2124240380, 2131333572, 2137142927, 2141664948, 2144896910, 2146836866, 2147483647]

/-- `sin (b * π / 16384)` for `b` below 128. -/
def sineFine : Array Int32 :=
  #[0, 411775, 823550, 1235324, 1647099, 2058874, 2470648, 2882423, 3294197, 3705972, 4117746,
    4529520, 4941294, 5353067, 5764841, 6176614, 6588387, 7000160, 7411932, 7823705, 8235476,
    8647248, 9059019, 9470790, 9882561, 10294331, 10706101, 11117871, 11529640, 11941409, 12353177,
    12764945, 13176712, 13588479, 14000245, 14412011, 14823776, 15235541, 15647305, 16059069,
    16470832, 16882594, 17294356, 17706117, 18117878, 18529638, 18941397, 19353155, 19764913,
    20176670, 20588426, 21000182, 21411936, 21823690, 22235444, 22647196, 23058947, 23470698,
    23882448, 24294197, 24705945, 25117692, 25529438, 25941183, 26352928, 26764671, 27176413,
    27588155, 27999895, 28411635, 28823373, 29235110, 29646846, 30058581, 30470315, 30882048,
    31293780, 31705510, 32117239, 32528968, 32940695, 33352420, 33764145, 34175868, 34587590,
    34999311, 35411031, 35822749, 36234466, 36646181, 37057895, 37469608, 37881320, 38293030,
    38704738, 39116446, 39528151, 39939856, 40351559, 40763260, 41174960, 41586658, 41998355,
    42410051, 42821744, 43233436, 43645127, 44056816, 44468503, 44880189, 45291873, 45703556,
    46115236, 46526915, 46938593, 47350268, 47761942, 48173614, 48585284, 48996953, 49408620,
    49820285, 50231948, 50643609, 51055268, 51466926, 51878581, 52290235]

/-- `cos (b * π / 16384)` for `b` below 128. -/
def cosineFine : Array Int32 :=
  #[2147483647, 2147483609, 2147483490, 2147483293, 2147483016, 2147482661, 2147482227, 2147481714,
    2147481121, 2147480450, 2147479700, 2147478871, 2147477963, 2147476976, 2147475910, 2147474765,
    2147473542, 2147472239, 2147470857, 2147469396, 2147467857, 2147466238, 2147464540, 2147462764,
    2147460908, 2147458974, 2147456961, 2147454868, 2147452697, 2147450447, 2147448118, 2147445709,
    2147443222, 2147440656, 2147438011, 2147435287, 2147432484, 2147429602, 2147426641, 2147423602,
    2147420483, 2147417285, 2147414008, 2147410653, 2147407218, 2147403705, 2147400112, 2147396441,
    2147392690, 2147388861, 2147384953, 2147380965, 2147376899, 2147372754, 2147368530, 2147364227,
    2147359845, 2147355384, 2147350844, 2147346225, 2147341527, 2147336750, 2147331895, 2147326960,
    2147321946, 2147316854, 2147311682, 2147306432, 2147301102, 2147295694, 2147290207, 2147284640,
    2147278995, 2147273271, 2147267468, 2147261586, 2147255625, 2147249585, 2147243466, 2147237268,
    2147230991, 2147224635, 2147218201, 2147211687, 2147205094, 2147198423, 2147191672, 2147184843,
    2147177934, 2147170947, 2147163881, 2147156736, 2147149511, 2147142208, 2147134826, 2147127365,
    2147119825, 2147112206, 2147104508, 2147096732, 2147088876, 2147080941, 2147072928, 2147064835,
    2147056664, 2147048413, 2147040084, 2147031675, 2147023188, 2147014622, 2147005977, 2146997253,
    2146988450, 2146979568, 2146970607, 2146961567, 2146952448, 2146943251, 2146933974, 2146924618,
    2146915184, 2146905670, 2146896078, 2146886407, 2146876656, 2146866827, 2146856919, 2146846932]

/-- `2 ^ (i / 64)` for `i` up to 64. -/
def powerSteps : Array Nat :=
  #[1073741824, 1085434106, 1097253708, 1109202018, 1121280436, 1133490379, 1145833280, 1158310587,
    1170923762, 1183674286, 1196563654, 1209593378, 1222764986, 1236080024, 1249540052, 1263146652,
    1276901417, 1290805962, 1304861917, 1319070932, 1333434672, 1347954824, 1362633090, 1377471191,
    1392470869, 1407633882, 1422962010, 1438457051, 1454120821, 1469955159, 1485961921, 1502142985,
    1518500250, 1535035634, 1551751076, 1568648537, 1585730000, 1602997467, 1620452965, 1638098541,
    1655936265, 1673968228, 1692196547, 1710623359, 1729250827, 1748081133, 1767116489, 1786359126,
    1805811301, 1825475297, 1845353420, 1865448001, 1885761398, 1906295993, 1927054196, 1948038440,
    1969251188, 1990694927, 2012372174, 2034285470, 2056437387, 2078830522, 2101467502, 2124350982,
    2147483648]

/-- `log₂ 10 / 20` with 32 fractional bits. -/
def decibelScale : Int :=
  713378626

end Wma
