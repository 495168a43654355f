/-!
# Envelope tables

Ratios below the peak of a stepped envelope, and the levels to which line spectral pairs are
quantized.
-/

namespace Wma

/-- `10 ^ (-d / 16)` with 30 fractional bits, for distances `d` below the peak. -/
def peakRatios : Array UInt32 :=
  #[1073741824, 929822112, 805192776, 697268218, 603809400, 522877399, 452793173, 392102733,
    339546978, 294035569, 254624313, 220495571, 190941298, 165348352, 143185773, 123993771,
    107374182, 92982211, 80519278, 69726822, 60380940, 52287740, 45279317, 39210273, 33954698,
    29403557, 25462431, 22049557, 19094130, 16534835, 14318577, 12399377, 10737418, 9298221,
    8051928, 6972682, 6038094, 5228774, 4527932, 3921027, 3395470, 2940356, 2546243, 2204956,
    1909413, 1653484, 1431858, 1239938, 1073742, 929822, 805193, 697268, 603809, 522877, 452793,
    392103, 339547, 294036, 254624, 220496, 190941, 165348, 143186, 123994, 107374, 92982, 80519,
    69727, 60381, 52288, 45279, 39210, 33955, 29404, 25462, 22050, 19094, 16535, 14319, 12399,
    10737, 9298, 8052, 6973, 6038, 5229, 4528, 3921, 3395, 2940, 2546, 2205, 1909, 1653, 1432, 1240,
    1074, 930, 805, 697, 604, 523, 453, 392, 340, 294, 255, 220, 191, 165, 143, 124, 107, 93, 81,
    70, 60, 52, 45, 39, 34, 29, 25, 22, 19, 17, 14, 12, 11, 9, 8, 7, 6, 5, 5, 4, 3, 3, 3, 2, 2, 2,
    1, 1, 1, 1, 1, 1, 1, 1, 0, 0, 0, 0, 0, 0, 0, 0, 0, 0, 0, 0, 0, 0, 0, 0, 0, 0, 0, 0, 0, 0, 0, 0,
    0, 0, 0, 0, 0, 0, 0, 0, 0, 0, 0, 0, 0, 0, 0, 0, 0, 0, 0, 0, 0, 0, 0, 0, 0, 0, 0, 0, 0, 0, 0, 0,
    0, 0, 0, 0, 0, 0, 0, 0, 0, 0]

/-- Levels of the ten line spectral pairs, `2 * cos w` with 28 fractional bits. -/
def linePairLevels : Array (Array Int) := #[
  #[536274918, 535846528, 535302965, 534644348, 533870817, 532982540, 531979706, 530862531,
    529631256, 528286145, 526827487, 525255597, 523570810, 521773491, 519864024, 517842821],
  #[502212690, 499376639, 496433256, 493383172, 490227043, 486965547, 483599386, 480129283,
    476555984, 472880256, 469102890, 465224698, 461246514, 457169191, 452993608, 448720660],
  #[418990385, 414024287, 408969201, 403826213, 398596430, 393280974, 387880989, 382397635,
    376832091, 371185553, 365459234, 359654365, 353772195, 347813986, 341781021, 335674595],
  #[294754381, 288144352, 281472391, 274739931, 267948421, 261099319, 254194098, 247234243,
    240221248, 233156621, 226041881, 218878557, 211668188, 204412325, 197112527, 189770362],
  #[141665765, 134058840, 126423102, 118760191, 111071754, 103359444, 95624918, 87869840, 80095875,
    72304695, 64497974, 56677391, 48844625, 41001361, 33149285, 25290083],
  #[-25290083, -33149285, -41001361, -48844625, -56677391, -64497974, -72304695, -80095875,
    -87869840, -95624918, -103359444, -111071754, -118760191, -126423102, -134058840, -141665765],
  #[-189770362, -197112527, -204412325, -211668188, -218878557, -226041881, -233156621, -240221248,
    -247234243, -254194098, -261099319, -267948421, -274739931, -281472391, -288144352, -294754381],
  #[-335674595, -341781021, -347813986, -353772195, -359654365, -365459234, -371185553, -376832091,
    -382397635, -387880989, -393280974, -398596430, -403826213, -408969201, -414024287, -418990385],
  #[-448720660, -452993608, -457169191, -461246514, -465224698, -469102890, -472880256, -476555984,
    -480129283, -483599386, -486965547, -490227043, -493383172, -496433256, -499376639, -502212690],
  #[-517842821, -519864024, -521773491, -523570810, -525255597, -526827487, -528286145, -529631256,
    -530862531, -531979706, -532982540, -533870817, -534644348, -535302965, -535846528, -536274918]]

end Wma
